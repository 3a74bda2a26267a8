import TidyTuples.Sql.Grammar
import TidyTuples.Sql.Parser
import Mathlib.Tactic.Common

/-!
# The parser accepts exactly its grammar

`Meets P S ts` is the soundness half at one state: `P` consumes a phrase that `S` relates to its
result and to what follows, or throws a `runtime_error`; it neither runs off the token vector nor
exhausts a loop bound. `Accepts n P R F` is the completeness half: a phrase of `R` followed by a
token in `F` is consumed entirely.
-/

namespace TidyTuples.Proofs
open TidyTuples.Parser

/-- A token vector as the tokenizer builds it, from some position on. -/
def Terminated (ts : List Token) : Prop :=
  ∃ body e, ts = body ++ [e] ∧ e.kind = .endOfInput ∧ ∀ t ∈ body, t.kind ≠ .endOfInput

lemma terminated_head {ts : List Token} (h : Terminated ts) :
    ∃ t tail, ts = t :: tail ∧ (t.kind ≠ .endOfInput → Terminated tail) := by
  obtain ⟨body, e, rfl, he, hb⟩ := h
  cases body with
  | nil => exact ⟨e, [], rfl, fun hne => absurd he hne⟩
  | cons t body =>
    refine ⟨t, body ++ [e], rfl, fun _ => ⟨body, e, rfl, he, ?_⟩⟩
    intro u hu
    exact hb u (List.mem_cons_of_mem t hu)

lemma parser_bind_ok {α β : Type} {P : Parser α} {k : α → Parser β} {ts rest : List Token} {x : α}
    (h : P ts = .ok (x, rest)) : (P >>= k) ts = k x rest := by
  simp only [bind, StateT.bind, h, Except.bind]

lemma parser_bind_error {α β : Type} {P : Parser α} {k : α → Parser β} {ts : List Token}
    {e : CppError} (h : P ts = .error e) : (P >>= k) ts = .error e := by
  simp only [bind, StateT.bind, h, Except.bind]

lemma parser_pure {α : Type} (x : α) (ts : List Token) : (pure x : Parser α) ts = .ok (x, ts) := rfl

lemma peek_cons (t : Token) (ts : List Token) : peek (t :: ts) = .ok (t, t :: ts) := rfl

lemma consume_cons {t : Token} (ts : List Token) (h : t.kind ≠ .endOfInput) :
    consume (t :: ts) = .ok (t, ts) := by
  simp [consume, h]

lemma expect_of_kind {k : TokenKind} {t : Token} (msg : String) (ts : List Token)
    (hk : t.kind = k) (hend : k ≠ .endOfInput) : expect k msg (t :: ts) = .ok (t, ts) := by
  have hne : t.kind ≠ .endOfInput := hk ▸ hend
  rw [expect, parser_bind_ok (peek_cons t ts), if_pos hk, consume_cons ts hne]

lemma tryConsume_of_kind {k : TokenKind} {t : Token} (ts : List Token) (hk : t.kind = k)
    (hend : k ≠ .endOfInput) : tryConsume k (t :: ts) = .ok (true, ts) := by
  have hne : t.kind ≠ .endOfInput := hk ▸ hend
  rw [tryConsume, parser_bind_ok (peek_cons t ts), if_pos hk, parser_bind_ok (consume_cons ts hne),
    parser_pure]

lemma tryConsume_of_ne {k : TokenKind} {t : Token} (ts : List Token) (hk : t.kind ≠ k) :
    tryConsume k (t :: ts) = .ok (false, t :: ts) := by
  rw [tryConsume, parser_bind_ok (peek_cons t ts), if_neg hk, parser_pure]

/-! ### Soundness, safety and termination -/

def Meets {α : Type} (P : Parser α) (S : List Token → α → List Token → Prop) (ts : List Token) :
    Prop :=
  (∃ x used rest, P ts = .ok (x, rest) ∧ ts = used ++ rest ∧ Terminated rest ∧ S used x rest) ∨
    ∃ msg, P ts = .error (.runtimeError msg)

lemma meets_pure {α : Type} {S : List Token → α → List Token → Prop} {x : α} {ts : List Token}
    (h : Terminated ts) (hS : S [] x ts) : Meets (pure x) S ts :=
  .inl ⟨x, [], ts, rfl, rfl, h, hS⟩

lemma meets_throw {α : Type} {S : List Token → α → List Token → Prop} (msg : String)
    (ts : List Token) : Meets (fail (.runtimeError msg)) S ts :=
  .inr ⟨msg, rfl⟩

lemma meets_bind {α β : Type} {P : Parser α} {k : α → Parser β}
    {R : List Token → α → List Token → Prop} {S : List Token → β → List Token → Prop}
    {ts : List Token} (hP : Meets P R ts)
    (hk : ∀ x used rest, ts = used ++ rest → Terminated rest → R used x rest →
      Meets (k x) (fun us y => S (used ++ us) y) rest) : Meets (P >>= k) S ts := by
  rcases hP with ⟨x, used, rest, hp, rfl, hterm, hR⟩ | ⟨msg, hp⟩
  · rcases hk x used rest rfl hterm hR with ⟨y, us, rest', hy, rfl, hterm', hS⟩ | ⟨msg, hy⟩
    · exact .inl ⟨y, used ++ us, rest', (parser_bind_ok hp).trans hy, by simp, hterm', hS⟩
    · exact .inr ⟨msg, (parser_bind_ok hp).trans hy⟩
  · exact .inr ⟨msg, parser_bind_error hp⟩

lemma meets_mono {α : Type} {P : Parser α} {R S : List Token → α → List Token → Prop}
    {ts : List Token} (h : Meets P R ts) (hRS : ∀ us x rest, R us x rest → S us x rest) :
    Meets P S ts := by
  rcases h with ⟨x, used, rest, hp, hts, hterm, hR⟩ | herr
  · exact .inl ⟨x, used, rest, hp, hts, hterm, hRS used x rest hR⟩
  · exact .inr herr

lemma peek_meets {ts : List Token} (h : Terminated ts) :
    Meets peek (fun us t rest => us = [] ∧ ∃ tail, rest = t :: tail) ts := by
  obtain ⟨t, tail, rfl, -⟩ := terminated_head h
  exact .inl ⟨t, [], t :: tail, rfl, rfl, h, rfl, tail, rfl⟩

lemma consume_meets {t : Token} {tail : List Token} (hne : t.kind ≠ .endOfInput)
    (h : Terminated (t :: tail)) :
    Meets consume (fun us u rest => us = [t] ∧ t = u ∧ tail = rest) (t :: tail) := by
  obtain ⟨t', tail', heq, htail⟩ := terminated_head h
  cases heq
  exact .inl ⟨t, [t], tail, consume_cons tail hne, rfl, htail hne, rfl, rfl, rfl⟩

lemma remaining_meets {ts : List Token} (h : Terminated ts) :
    Meets remaining (fun us n rest => us = [] ∧ n = ts.length ∧ rest = ts) ts :=
  .inl ⟨ts.length, [], ts, rfl, rfl, h, rfl, rfl, rfl⟩

lemma expect_meets {k : TokenKind} {msg : String} (hk : k ≠ .endOfInput) {ts : List Token}
    (h : Terminated ts) : Meets (expect k msg) (fun us t _ => us = [t] ∧ t.kind = k) ts := by
  refine meets_bind (peek_meets h) ?_
  rintro t _ _ rfl hrest ⟨rfl, tail, rfl⟩
  by_cases htk : t.kind = k
  · rw [if_pos htk]
    refine meets_mono (consume_meets (htk ▸ hk) hrest) ?_
    rintro us u rest ⟨rfl, rfl, rfl⟩
    exact ⟨rfl, htk⟩
  · rw [if_neg htk]
    exact meets_throw _ _

lemma tryConsume_meets {k : TokenKind} (hk : k ≠ .endOfInput) {ts : List Token}
    (h : Terminated ts) : Meets (tryConsume k)
      (fun us b _ => (b = true ∧ ∃ t, us = [t] ∧ t.kind = k) ∨ (b = false ∧ us = [])) ts := by
  obtain ⟨t, tail, rfl, htail⟩ := terminated_head h
  by_cases htk : t.kind = k
  · exact .inl ⟨true, [t], tail, tryConsume_of_kind tail htk hk, rfl, htail (htk ▸ hk),
      .inl ⟨rfl, t, rfl, htk⟩⟩
  · exact .inl ⟨false, [], t :: tail, tryConsume_of_ne tail htk, rfl, h, .inr ⟨rfl, rfl⟩⟩

section LeftAssoc

variable {opOf : TokenKind → Option BinOpKind} {operand : Parser Expr}
  {R Q : List Token → Expr → Prop}

/-- One more operator and operand extend the phrase on the left of the cursor. -/
lemma leftAssocLoop_meets {n : Nat} (hend : opOf .endOfInput = none)
    (hR : ∀ ts, Terminated ts → ts.length ≤ n → Meets operand (fun us e _ => R us e) ts)
    (hstep : ∀ {ls l t op rs r}, Q ls l → opOf t.kind = some op → R rs r →
      Q (ls ++ t :: rs) (.binOp op l r))
    (fuel : Nat) (lhs : Expr) (before ts : List Token) (hlhs : Q before lhs)
    (hts : Terminated ts) (hn : ts.length ≤ n) (hfuel : ts.length < fuel) :
    Meets (leftAssocLoop opOf operand fuel lhs) (fun us x _ => Q (before ++ us) x) ts := by
  induction fuel generalizing lhs before ts with
  | zero => omega
  | succ fuel ih =>
    rw [leftAssocLoop]
    refine meets_bind (peek_meets hts) ?_
    rintro t _ _ rfl hts ⟨rfl, tail, rfl⟩
    cases hop : opOf t.kind with
    | none => exact meets_pure hts (by simpa using hlhs)
    | some op =>
      have hne : t.kind ≠ .endOfInput := fun h => by simp [h, hend] at hop
      simp only [List.nil_append, List.length_cons] at hn hfuel
      refine meets_bind (consume_meets hne hts) ?_
      rintro _ _ _ - htail ⟨rfl, rfl, rfl⟩
      refine meets_bind (hR _ htail (by omega)) ?_
      rintro rhs used rest rfl hrest hrhs
      simp only [List.length_append] at hn hfuel
      refine meets_mono (ih (makeBinOp op lhs rhs) (before ++ t :: used) rest
        (hstep hlhs hop hrhs) hrest (by omega) (by omega)) ?_
      intro us x _ hx
      simpa using hx

lemma leftAssoc_meets {n : Nat} (hend : opOf .endOfInput = none)
    (hR : ∀ ts, Terminated ts → ts.length ≤ n → Meets operand (fun us e _ => R us e) ts)
    (hsingle : ∀ {ts e}, R ts e → Q ts e)
    (hstep : ∀ {ls l t op rs r}, Q ls l → opOf t.kind = some op → R rs r →
      Q (ls ++ t :: rs) (.binOp op l r))
    {ts : List Token} (hts : Terminated ts) (hn : ts.length ≤ n) :
    Meets (leftAssoc opOf operand) (fun us e _ => Q us e) ts := by
  refine meets_bind (hR ts hts hn) ?_
  rintro lhs used rest rfl hrest hlhs
  simp only [List.length_append] at hn
  refine meets_bind (remaining_meets hrest) ?_
  rintro _ _ _ - - ⟨rfl, rfl, rfl⟩
  exact leftAssocLoop_meets hend hR hstep _ lhs used _ (hsingle hlhs) hrest (by omega) (by omega)

end LeftAssoc

lemma addOp_isAdditive {k : TokenKind} {op : BinOpKind} :
    addOp k = some op ↔ Grammar.IsAdditive k op := by
  constructor
  · intro h
    cases k <;> simp [addOp] at h <;> subst h <;> constructor
  · rintro (_ | _) <;> rfl

lemma compOp_isComparison {k : TokenKind} {op : BinOpKind} :
    compOp k = some op ↔ Grammar.IsComparison k op := by
  constructor
  · intro h
    cases k <;> simp [compOp] at h <;> subst h <;> constructor
  · rintro (_ | _) <;> rfl

lemma andOp_eq_some {k : TokenKind} {op : BinOpKind} :
    andOp k = some op ↔ k = .kwAnd ∧ op = .and := by
  cases k <;> simp [andOp, eq_comm]

lemma orOp_eq_some {k : TokenKind} {op : BinOpKind} :
    orOp k = some op ↔ k = .kwOr ∧ op = .or := by
  cases k <;> simp [orOp, eq_comm]

section Expressions

variable {primary : Parser Expr} {n : Nat}
  (hprim : ∀ ts, Terminated ts → ts.length ≤ n →
    Meets primary (fun us e _ => Grammar.Primary us e) ts)

include hprim

lemma parseAddExpr_meets {ts : List Token} (hts : Terminated ts) (hn : ts.length ≤ n) :
    Meets (parseAddExpr primary) (fun us e _ => Grammar.AddExpr us e) ts :=
  leftAssoc_meets rfl hprim .single
    (fun hl hop hr => .add hl (addOp_isAdditive.mp hop) hr) hts hn

lemma parseCompExpr_meets {ts : List Token} (hts : Terminated ts) (hn : ts.length ≤ n) :
    Meets (parseCompExpr primary) (fun us e _ => Grammar.CompExpr us e) ts := by
  refine meets_bind (parseAddExpr_meets hprim hts hn) ?_
  rintro lhs used rest rfl hrest hlhs
  refine meets_bind (peek_meets hrest) ?_
  rintro t _ _ rfl hrest ⟨rfl, tail, rfl⟩
  cases hop : compOp t.kind with
  | none => exact meets_pure hrest (by simpa using Grammar.CompExpr.single hlhs)
  | some op =>
    have hne : t.kind ≠ .endOfInput := fun h => by simp [h, compOp] at hop
    simp only [List.nil_append, List.length_append, List.length_cons] at hn
    refine meets_bind (consume_meets hne hrest) ?_
    rintro _ _ _ - htail ⟨rfl, rfl, rfl⟩
    refine meets_bind (parseAddExpr_meets hprim htail (by omega)) ?_
    rintro rhs us rest' rfl hrest' hrhs
    refine meets_pure hrest' ?_
    simpa [makeBinOp] using Grammar.CompExpr.comp hlhs (compOp_isComparison.mp hop) hrhs

lemma parseAndExpr_meets {ts : List Token} (hts : Terminated ts) (hn : ts.length ≤ n) :
    Meets (parseAndExpr primary) (fun us e _ => Grammar.AndExpr us e) ts := by
  refine leftAssoc_meets rfl (fun ts hts hn => parseCompExpr_meets hprim hts hn) .single ?_ hts hn
  intro ls l t op rs r hl hop hr
  obtain ⟨hk, rfl⟩ := andOp_eq_some.mp hop
  exact .and hl hk hr

lemma parseOrExpr_meets {ts : List Token} (hts : Terminated ts) (hn : ts.length ≤ n) :
    Meets (parseOrExpr primary) (fun us e _ => Grammar.OrExpr us e) ts := by
  refine leftAssoc_meets rfl (fun ts hts hn => parseAndExpr_meets hprim hts hn) .single ?_ hts hn
  intro ls l t op rs r hl hop hr
  obtain ⟨hk, rfl⟩ := orOp_eq_some.mp hop
  exact .or hl hk hr

end Expressions

lemma parsePrimary_meets (n : Nat) {ts : List Token} (hts : Terminated ts) (hn : ts.length ≤ n) :
    Meets (parsePrimary n) (fun us e _ => Grammar.Primary us e) ts := by
  induction n generalizing ts with
  | zero =>
    obtain ⟨t, tail, rfl, -⟩ := terminated_head hts
    simp at hn
  | succ n ih =>
    rw [parsePrimary]
    refine meets_bind (peek_meets hts) ?_
    rintro t _ _ rfl hts ⟨rfl, tail, rfl⟩
    simp only [List.nil_append, List.length_cons] at hn
    by_cases hint : t.kind = .intLit
    · rw [if_pos hint]
      refine meets_bind (consume_meets (by simp [hint]) hts) ?_
      rintro _ _ _ - htail ⟨rfl, rfl, rfl⟩
      exact meets_pure htail (.intLit hint)
    rw [if_neg hint]
    by_cases hident : t.kind = .ident
    · rw [if_pos hident]
      refine meets_bind (consume_meets (by simp [hident]) hts) ?_
      rintro _ _ _ - htail ⟨rfl, rfl, rfl⟩
      refine meets_bind (tryConsume_meets (by decide) htail) ?_
      rintro dot used rest rfl hrest (⟨rfl, d, rfl, hd⟩ | ⟨rfl, rfl⟩)
      · refine meets_bind (expect_meets (by decide) hrest) ?_
        rintro col _ rest - hrest ⟨rfl, hcol⟩
        exact meets_pure hrest (.qualified hident hd hcol)
      · exact meets_pure hrest (.column hident)
    rw [if_neg hident]
    by_cases hparen : t.kind = .lparen
    · rw [if_pos hparen]
      refine meets_bind (consume_meets (by simp [hparen]) hts) ?_
      rintro _ _ _ - htail ⟨rfl, rfl, rfl⟩
      refine meets_bind (parseOrExpr_meets (n := n) (fun ts hts hn => ih hts hn) htail
        (by omega)) ?_
      rintro e used rest rfl hrest he
      refine meets_bind (expect_meets (by decide) hrest) ?_
      rintro r _ rest' rfl hrest' ⟨rfl, hr⟩
      exact meets_pure hrest' (by simpa using Grammar.Primary.paren hparen he hr)
    · rw [if_neg hparen]
      exact meets_throw _ _

lemma parseExpr_meets {ts : List Token} (hts : Terminated ts) :
    Meets parseExpr (fun us e _ => Grammar.OrExpr us e) ts := by
  refine meets_bind (remaining_meets hts) ?_
  rintro _ _ _ - - ⟨rfl, rfl, rfl⟩
  exact parseOrExpr_meets (fun _ hts hn => parsePrimary_meets _ hts hn) hts (Nat.le_refl _)

lemma commaListLoop_meets {α : Type} {item : Parser α} {R : List Token → α → Prop}
    (hitem : ∀ ts, Terminated ts → Meets item (fun us x _ => R us x) ts) (n : Nat)
    {ts : List Token} (hts : Terminated ts) (hn : ts.length ≤ n) :
    Meets (commaListLoop item n) (fun us xs _ => Grammar.CommaList R us xs) ts := by
  induction n generalizing ts with
  | zero =>
    obtain ⟨t, tail, rfl, -⟩ := terminated_head hts
    simp at hn
  | succ n ih =>
    refine meets_bind (hitem ts hts) ?_
    rintro x used rest rfl hrest hx
    refine meets_bind (tryConsume_meets (by decide) hrest) ?_
    rintro more us rest' rfl hrest' (⟨rfl, c, rfl, hc⟩ | ⟨rfl, rfl⟩)
    · simp only [List.length_append, List.length_cons, List.length_nil] at hn
      refine meets_bind (ih hrest' (by omega)) ?_
      rintro xs vs rest'' rfl hrest'' hxs
      exact meets_pure hrest'' (by simpa using Grammar.CommaList.cons hx hc hxs)
    · exact meets_pure hrest' (by simpa using Grammar.CommaList.one hx)

lemma commaList_meets {α : Type} {item : Parser α} {R : List Token → α → Prop}
    (hitem : ∀ ts, Terminated ts → Meets item (fun us x _ => R us x) ts) {ts : List Token}
    (hts : Terminated ts) : Meets (commaList item) (fun us xs _ => Grammar.CommaList R us xs) ts := by
  refine meets_bind (remaining_meets hts) ?_
  rintro _ _ _ - - ⟨rfl, rfl, rfl⟩
  exact commaListLoop_meets hitem _ hts (Nat.le_refl _)

lemma parseSelectItem_meets {ts : List Token} (hts : Terminated ts) :
    Meets parseSelectItem (fun us x _ => Grammar.Item us x) ts := by
  refine meets_bind (parseExpr_meets hts) ?_
  rintro e used rest rfl hrest he
  refine meets_bind (tryConsume_meets (by decide) hrest) ?_
  rintro hasAlias us rest' rfl hrest' (⟨rfl, a, rfl, ha⟩ | ⟨rfl, rfl⟩)
  · refine meets_bind (expect_meets (by decide) hrest') ?_
    rintro n us rest'' rfl hrest'' ⟨rfl, hn⟩
    exact meets_pure hrest'' (by simpa using Grammar.Item.named he ha hn)
  · exact meets_pure hrest' (by simpa using Grammar.Item.plain he)

lemma parseSelectList_meets {ts : List Token} (hts : Terminated ts) :
    Meets parseSelectList (fun us x _ => Grammar.SelectList us x) ts := by
  refine meets_bind (peek_meets hts) ?_
  rintro t _ _ rfl hts ⟨rfl, tail, rfl⟩
  by_cases hstar : t.kind = .star
  · rw [if_pos hstar]
    refine meets_bind (consume_meets (by simp [hstar]) hts) ?_
    rintro _ _ _ - htail ⟨rfl, rfl, rfl⟩
    exact meets_pure htail (.star hstar)
  · rw [if_neg hstar]
    exact meets_mono (commaList_meets (fun _ h => parseSelectItem_meets h) hts)
      (fun us items _ h => .items h)

lemma parseTableRef_meets {ts : List Token} (hts : Terminated ts) :
    Meets parseTableRef (fun us x _ => Grammar.Table us x) ts := by
  refine meets_bind (expect_meets (by decide) hts) ?_
  rintro name _ rest rfl hrest ⟨rfl, hname⟩
  refine meets_bind (peek_meets hrest) ?_
  rintro t _ _ rfl hrest ⟨rfl, tail, rfl⟩
  by_cases ht : t.kind = .ident
  · rw [if_pos ht]
    refine meets_bind (consume_meets (by simp [ht]) hrest) ?_
    rintro _ _ _ - htail ⟨rfl, rfl, rfl⟩
    exact meets_pure htail (.aliased hname ht)
  · rw [if_neg ht]
    exact meets_pure hrest (.plain hname)

lemma parseWhere_meets {ts : List Token} (hts : Terminated ts) :
    Meets parseWhere (fun us x _ => Grammar.Where us x) ts := by
  refine meets_bind (tryConsume_meets (by decide) hts) ?_
  rintro found used rest rfl hrest (⟨rfl, w, rfl, hw⟩ | ⟨rfl, rfl⟩)
  · refine meets_bind (parseExpr_meets hrest) ?_
    rintro e us rest' rfl hrest' he
    exact meets_pure hrest' (by simpa using Grammar.Where.cond hw he)
  · exact meets_pure hrest .absent

lemma parseLimit_meets {ts : List Token} (hts : Terminated ts) :
    Meets parseLimit (fun us x _ => Grammar.Limit us x) ts := by
  refine meets_bind (tryConsume_meets (by decide) hts) ?_
  rintro found used rest rfl hrest (⟨rfl, l, rfl, hl⟩ | ⟨rfl, rfl⟩)
  · refine meets_bind (expect_meets (by decide) hrest) ?_
    rintro t _ rest' rfl hrest' ⟨rfl, ht⟩
    by_cases hneg : t.intVal.slt 0 = true
    · rw [if_pos hneg]
      exact meets_throw _ _
    · rw [if_neg hneg]
      exact meets_pure hrest' (.count hl ht)
  · exact meets_pure hrest .absent

lemma parseSelect_meets {ts : List Token} (hts : Terminated ts) :
    Meets parseSelect (fun us stmt rest => Grammar.Select us stmt ∧
      ∃ e tail, rest = e :: tail ∧ e.kind = .endOfInput) ts := by
  refine meets_bind (expect_meets (by decide) hts) ?_
  rintro s _ ts - hts ⟨rfl, hs⟩
  refine meets_bind (parseSelectList_meets hts) ?_
  rintro selectList list ts - hts hlist
  refine meets_bind (expect_meets (by decide) hts) ?_
  rintro f _ ts - hts ⟨rfl, hf⟩
  refine meets_bind (commaList_meets (fun _ h => parseTableRef_meets h) hts) ?_
  rintro fromList tables ts - hts htables
  refine meets_bind (parseWhere_meets hts) ?_
  rintro whereExpr cond ts - hts hcond
  refine meets_bind (parseLimit_meets hts) ?_
  rintro limit lim ts - hts hlim
  refine meets_bind (tryConsume_meets (by decide) hts) ?_
  rintro hasSemi semi ts - hts hsemi
  have hsemi' : Grammar.Semicolon semi := by
    rcases hsemi with ⟨-, t, rfl, ht⟩ | ⟨-, rfl⟩
    · exact .present ht
    · exact .absent
  refine meets_bind (peek_meets hts) ?_
  rintro e _ _ rfl hts ⟨rfl, tail, rfl⟩
  by_cases he : e.kind = .endOfInput
  · rw [if_pos he]
    refine meets_pure hts ⟨?_, e, tail, rfl, he⟩
    simpa using Grammar.Select.mk hs hlist hf htables hcond hlim hsemi'
  · rw [if_neg he]
    exact meets_throw _ _

/-! ### Completeness -/

/-- Phrases of `R` of at most `n` tokens (with what follows them) are consumed entirely when the
next token is in `F`. -/
def Accepts {α : Type} (n : Nat) (P : Parser α) (R : List Token → α → Prop)
    (F : TokenKind → Prop) : Prop :=
  ∀ used x t tail, R used x → F t.kind → (used ++ t :: tail).length ≤ n →
    P (used ++ t :: tail) = .ok (x, t :: tail)

/-- Left-associated chains `operand op operand op ...`. -/
inductive Chain (opOf : TokenKind → Option BinOpKind) (R : List Token → Expr → Prop) :
    List Token → Expr → Prop
  | single {ts : List Token} {e : Expr} : R ts e → Chain opOf R ts e
  | snoc {ls rs : List Token} {t : Token} {op : BinOpKind} {l r : Expr} : Chain opOf R ls l →
      opOf t.kind = some op → R rs r → Chain opOf R (ls ++ t :: rs) (.binOp op l r)

theorem addExpr_chain {ts : List Token} {e : Expr} (h : Grammar.AddExpr ts e) :
    Chain addOp Grammar.Primary ts e :=
  match h with
  | .single h => .single h
  | .add hl hop hr => .snoc (addExpr_chain hl) (addOp_isAdditive.mpr hop) hr

theorem andExpr_chain {ts : List Token} {e : Expr} (h : Grammar.AndExpr ts e) :
    Chain andOp Grammar.CompExpr ts e :=
  match h with
  | .single h => .single h
  | .and hl hk hr => .snoc (andExpr_chain hl) (andOp_eq_some.mpr ⟨hk, rfl⟩) hr

theorem orExpr_chain {ts : List Token} {e : Expr} (h : Grammar.OrExpr ts e) :
    Chain orOp Grammar.AndExpr ts e :=
  match h with
  | .single h => .single h
  | .or hl hk hr => .snoc (orExpr_chain hl) (orOp_eq_some.mpr ⟨hk, rfl⟩) hr

section LeftAssoc

variable {opOf : TokenKind → Option BinOpKind} {operand : Parser Expr}
  {R : List Token → Expr → Prop} {F : TokenKind → Prop} {n : Nat}

/-- After a chain the loop stands behind it with the chain's tree as its left operand. -/
lemma leftAssoc_reaches_loop (hend : opOf .endOfInput = none)
    (hR : Accepts n operand R F) (hF : ∀ k op, opOf k = some op → F k)
    {used : List Token} {x : Expr} (h : Chain opOf R used x) (t : Token) (tail : List Token)
    (ht : F t.kind) (hn : (used ++ t :: tail).length ≤ n) :
    ∃ fuel, (t :: tail).length < fuel ∧ leftAssoc opOf operand (used ++ t :: tail) =
      leftAssocLoop opOf operand fuel x (t :: tail) := by
  induction h generalizing t tail with
  | single hx =>
    refine ⟨(t :: tail).length + 1, Nat.lt_succ_self _, ?_⟩
    rw [leftAssoc, parser_bind_ok (hR _ _ t tail hx ht hn)]
    rfl
  | @snoc ls rs u op l r hl hop hr ih =>
    simp only [List.append_assoc, List.cons_append] at hn ⊢
    obtain ⟨fuel, hfuel, heq⟩ := ih u (rs ++ t :: tail) (hF _ _ hop) hn
    have hne : u.kind ≠ .endOfInput := fun h => by simp [h, hend] at hop
    cases fuel with
    | zero => omega
    | succ fuel =>
      simp only [List.length_append, List.length_cons] at hfuel hn ⊢
      refine ⟨fuel, by omega, ?_⟩
      rw [heq, leftAssocLoop, parser_bind_ok (peek_cons _ _), hop]
      simp only
      rw [parser_bind_ok (consume_cons _ hne), parser_bind_ok (hR rs r t tail hr ht (by
        simp only [List.length_append, List.length_cons]; omega))]
      rfl

lemma leftAssoc_accepts (hend : opOf .endOfInput = none) (hR : Accepts n operand R F)
    (hF : ∀ k op, opOf k = some op → F k) :
    Accepts n (leftAssoc opOf operand) (Chain opOf R) (fun k => F k ∧ opOf k = none) := by
  intro used x t tail hx ⟨ht, hop⟩ hn
  obtain ⟨fuel, hfuel, heq⟩ := leftAssoc_reaches_loop hend hR hF hx t tail ht hn
  cases fuel with
  | zero => omega
  | succ fuel =>
    rw [heq, leftAssocLoop, parser_bind_ok (peek_cons _ _), hop]
    rfl

end LeftAssoc

section Expressions

variable {primary : Parser Expr} {n : Nat}
  (hprim : Accepts n primary Grammar.Primary (fun k => k ≠ .dot))

include hprim

lemma parseAddExpr_accepts :
    Accepts n (parseAddExpr primary) Grammar.AddExpr (fun k => k ≠ .dot ∧ addOp k = none) := by
  intro used x t tail hx ht hn
  refine leftAssoc_accepts rfl hprim ?_ used x t tail (addExpr_chain hx) ht hn
  rintro k op hop rfl
  simp [addOp] at hop

lemma parseCompExpr_accepts :
    Accepts n (parseCompExpr primary) Grammar.CompExpr
      (fun k => (k ≠ .dot ∧ addOp k = none) ∧ compOp k = none) := by
  rintro used x t tail hx ⟨ht, hcomp⟩ hn
  cases hx with
  | single hx =>
    rw [parseCompExpr, parser_bind_ok (parseAddExpr_accepts hprim _ _ t tail hx ht hn),
      parser_bind_ok (peek_cons _ _), hcomp]
    rfl
  | @comp ls rs u op l r hl hop hr =>
    have hcmp := compOp_isComparison.mpr hop
    have hne : u.kind ≠ .endOfInput := fun h => by simp [h, compOp] at hcmp
    have hu : u.kind ≠ .dot ∧ addOp u.kind = none := by
      cases hk : u.kind <;> simp [hk, compOp, addOp] at hcmp ⊢
    simp only [List.append_assoc, List.cons_append] at hn ⊢
    rw [parseCompExpr, parser_bind_ok (parseAddExpr_accepts hprim ls l u _ hl hu hn),
      parser_bind_ok (peek_cons _ _), hcmp]
    simp only
    simp only [List.length_append, List.length_cons] at hn
    rw [parser_bind_ok (consume_cons _ hne), parser_bind_ok (parseAddExpr_accepts hprim rs r t tail
      hr ht (by simp only [List.length_append, List.length_cons]; omega)), parser_pure]
    rfl

lemma parseAndExpr_accepts :
    Accepts n (parseAndExpr primary) Grammar.AndExpr
      (fun k => ((k ≠ .dot ∧ addOp k = none) ∧ compOp k = none) ∧ andOp k = none) := by
  intro used x t tail hx ht hn
  refine leftAssoc_accepts rfl (parseCompExpr_accepts hprim) ?_ used x t tail (andExpr_chain hx) ht hn
  rintro k op hop
  obtain ⟨rfl, -⟩ := andOp_eq_some.mp hop
  simp [addOp, compOp]

lemma parseOrExpr_accepts :
    Accepts n (parseOrExpr primary) Grammar.OrExpr
      (fun k => (((k ≠ .dot ∧ addOp k = none) ∧ compOp k = none) ∧ andOp k = none) ∧
        orOp k = none) := by
  intro used x t tail hx ht hn
  refine leftAssoc_accepts rfl (parseAndExpr_accepts hprim) ?_ used x t tail (orExpr_chain hx) ht hn
  rintro k op hop
  obtain ⟨rfl, -⟩ := orOp_eq_some.mp hop
  simp [addOp, compOp, andOp]

end Expressions

lemma parsePrimary_accepts (n : Nat) :
    Accepts n (parsePrimary n) Grammar.Primary (fun k => k ≠ .dot) := by
  induction n with
  | zero =>
    intro used x t tail _ _ hn
    simp at hn
  | succ n ih =>
    intro used x t tail hx ht hn
    cases hx with
    | @intLit u hu =>
      have hne : u.kind ≠ .endOfInput := by simp [hu]
      rw [List.singleton_append, parsePrimary, parser_bind_ok (peek_cons _ _), if_pos hu,
        parser_bind_ok (consume_cons _ hne), parser_pure]
      rfl
    | @column u hu =>
      have hne : u.kind ≠ .endOfInput := by simp [hu]
      rw [List.singleton_append, parsePrimary, parser_bind_ok (peek_cons _ _),
        if_neg (by simp [hu]), if_pos hu, parser_bind_ok (consume_cons _ hne),
        parser_bind_ok (tryConsume_of_ne _ ht), if_neg Bool.false_ne_true, parser_pure]
      rfl
    | @qualified u d c hu hd hc =>
      have hne : u.kind ≠ .endOfInput := by simp [hu]
      simp only [List.cons_append, List.nil_append]
      rw [parsePrimary, parser_bind_ok (peek_cons _ _), if_neg (by simp [hu]), if_pos hu,
        parser_bind_ok (consume_cons _ hne),
        parser_bind_ok (tryConsume_of_kind _ hd (by decide)), if_pos rfl,
        parser_bind_ok (expect_of_kind _ _ hc (by decide)), parser_pure]
      rfl
    | @paren l r ts e hl he hr =>
      have hne : l.kind ≠ .endOfInput := by simp [hl]
      simp only [List.cons_append, List.append_assoc, List.nil_append, List.length_cons,
        List.length_append] at hn ⊢
      rw [parsePrimary, parser_bind_ok (peek_cons _ _), if_neg (by simp [hl]),
        if_neg (by simp [hl]), if_pos hl, parser_bind_ok (consume_cons _ hne),
        parser_bind_ok (parseOrExpr_accepts ih ts _ r (t :: tail) he (by
          simp [hr, addOp, compOp, andOp, orOp]) (by
          simp only [List.length_append, List.length_cons]; omega)),
        parser_bind_ok (expect_of_kind _ _ hr (by decide)), parser_pure]

/-- The tokens at which an expression of the statement level ends. -/
def endsExpr : TokenKind → Bool
  | .kwAs | .comma | .kwFrom | .kwLimit | .semicolon | .endOfInput => true
  | _ => false

lemma parseExpr_accepts {used : List Token} {e : Expr} (t : Token) (tail : List Token)
    (h : Grammar.OrExpr used e) (ht : endsExpr t.kind = true) :
    parseExpr (used ++ t :: tail) = .ok (e, t :: tail) := by
  refine parseOrExpr_accepts (parsePrimary_accepts _) used e t tail h ?_ (Nat.le_refl _)
  cases hk : t.kind <;> simp [hk, endsExpr, addOp, compOp, andOp, orOp] at ht ⊢

lemma parseSelectItem_accepts {used : List Token} {x : SelectItem} (t : Token) (tail : List Token)
    (h : Grammar.Item used x) (ht : t.kind = .comma ∨ t.kind = .kwFrom) :
    parseSelectItem (used ++ t :: tail) = .ok (x, t :: tail) := by
  cases h with
  | plain he =>
    have hends : endsExpr t.kind = true := by rcases ht with h | h <;> rw [h] <;> rfl
    have has : t.kind ≠ .kwAs := by rcases ht with h | h <;> rw [h] <;> decide
    rw [parseSelectItem, parser_bind_ok (parseExpr_accepts t tail he hends),
      parser_bind_ok (tryConsume_of_ne _ has), if_neg Bool.false_ne_true, parser_pure]
  | @named ts a m e he ha hm =>
    simp only [List.append_assoc, List.cons_append, List.nil_append]
    rw [parseSelectItem, parser_bind_ok (parseExpr_accepts a _ he (by rw [ha]; rfl)),
      parser_bind_ok (tryConsume_of_kind _ ha (by decide)), if_pos rfl,
      parser_bind_ok (expect_of_kind _ _ hm (by decide)), parser_pure]

lemma parseTableRef_accepts {used : List Token} {x : TableRef} (t : Token) (tail : List Token)
    (h : Grammar.Table used x) (ht : t.kind ≠ .ident) :
    parseTableRef (used ++ t :: tail) = .ok (x, t :: tail) := by
  cases h with
  | plain hu =>
    rw [List.singleton_append, parseTableRef, parser_bind_ok (expect_of_kind _ _ hu (by decide)),
      parser_bind_ok (peek_cons _ _), if_neg ht, parser_pure]
  | aliased hu ha =>
    simp only [List.cons_append, List.nil_append]
    rw [parseTableRef, parser_bind_ok (expect_of_kind _ _ hu (by decide)),
      parser_bind_ok (peek_cons _ _), if_pos ha,
      parser_bind_ok (consume_cons _ (by simp [ha])), parser_pure]

section CommaList

variable {α : Type} {item : Parser α} {R : List Token → α → Prop} {F : TokenKind → Prop}
  (hitem : ∀ used x t tail, R used x → F t.kind → item (used ++ t :: tail) = .ok (x, t :: tail))

include hitem

lemma commaListLoop_accepts (hcomma : F .comma) {used : List Token} {xs : List α}
    (h : Grammar.CommaList R used xs) (t : Token) (tail : List Token) (ht : F t.kind)
    (hne : t.kind ≠ .comma) (n : Nat) (hn : (used ++ t :: tail).length ≤ n) :
    commaListLoop item n (used ++ t :: tail) = .ok (xs, t :: tail) := by
  induction h generalizing n with
  | one hx =>
    cases n with
    | zero => simp at hn
    | succ n =>
      rw [commaListLoop, parser_bind_ok (hitem _ _ t tail hx ht),
        parser_bind_ok (tryConsume_of_ne _ hne), if_neg Bool.false_ne_true, parser_pure]
  | @cons ts us c x xs hx hc hxs ih =>
    cases n with
    | zero => simp at hn
    | succ n =>
      simp only [List.append_assoc, List.cons_append] at hn ⊢
      simp only [List.length_append, List.length_cons] at hn
      rw [commaListLoop, parser_bind_ok (hitem ts x c _ hx (hc ▸ hcomma)),
        parser_bind_ok (tryConsume_of_kind _ hc (by decide)), if_pos rfl, parser_bind_ok (ih n (by
          simp only [List.length_append, List.length_cons]; omega)), parser_pure]

lemma commaList_accepts (hcomma : F .comma) {used : List Token} {xs : List α}
    (h : Grammar.CommaList R used xs) (t : Token) (tail : List Token) (ht : F t.kind)
    (hne : t.kind ≠ .comma) : commaList item (used ++ t :: tail) = .ok (xs, t :: tail) :=
  commaListLoop_accepts hitem hcomma h t tail ht hne _ (Nat.le_refl _)

end CommaList

/-- A phrase never starts with a star: only the lone `*` of the SELECT list does. -/
lemma primary_head {ts : List Token} {e : Expr} (h : Grammar.Primary ts e) :
    ∃ t tail, ts = t :: tail ∧ t.kind ≠ .star := by
  cases h with
  | intLit h => exact ⟨_, _, rfl, by simp [h]⟩
  | column h => exact ⟨_, _, rfl, by simp [h]⟩
  | qualified h _ _ => exact ⟨_, _, rfl, by simp [h]⟩
  | paren h _ _ => exact ⟨_, _, rfl, by simp [h]⟩

lemma chain_head {opOf : TokenKind → Option BinOpKind} {R : List Token → Expr → Prop}
    (hR : ∀ {ts e}, R ts e → ∃ t tail, ts = t :: tail ∧ t.kind ≠ .star) {ts : List Token}
    {e : Expr} (h : Chain opOf R ts e) : ∃ t tail, ts = t :: tail ∧ t.kind ≠ .star := by
  induction h with
  | single h => exact hR h
  | snoc _ _ _ ih =>
    obtain ⟨t, tail, rfl, ht⟩ := ih
    exact ⟨t, _, rfl, ht⟩

lemma orExpr_head {ts : List Token} {e : Expr} (h : Grammar.OrExpr ts e) :
    ∃ t tail, ts = t :: tail ∧ t.kind ≠ .star := by
  refine chain_head (fun h => chain_head (fun h => ?_) (andExpr_chain h)) (orExpr_chain h)
  cases h with
  | single h => exact chain_head primary_head (addExpr_chain h)
  | comp h _ _ =>
    obtain ⟨t, tail, rfl, ht⟩ := chain_head primary_head (addExpr_chain h)
    exact ⟨t, _, rfl, ht⟩

lemma items_head {ts : List Token} {items : List SelectItem}
    (h : Grammar.CommaList Grammar.Item ts items) : ∃ t tail, ts = t :: tail ∧ t.kind ≠ .star := by
  have hitem : ∀ {us x}, Grammar.Item us x → ∃ t tail, us = t :: tail ∧ t.kind ≠ .star := by
    intro us x hx
    cases hx with
    | plain he => exact orExpr_head he
    | named he _ _ =>
      obtain ⟨t, tail, rfl, ht⟩ := orExpr_head he
      exact ⟨t, _, rfl, ht⟩
  cases h with
  | one hx => exact hitem hx
  | cons hx _ _ =>
    obtain ⟨t, tail, rfl, ht⟩ := hitem hx
    exact ⟨t, _, rfl, ht⟩

lemma parseSelectList_accepts {used : List Token} {items : List SelectItem} (t : Token)
    (tail : List Token) (h : Grammar.SelectList used items) (ht : t.kind = .kwFrom) :
    parseSelectList (used ++ t :: tail) = .ok (items, t :: tail) := by
  cases h with
  | star hs =>
    rw [List.singleton_append, parseSelectList, parser_bind_ok (peek_cons _ _), if_pos hs,
      parser_bind_ok (consume_cons _ (by simp [hs])), parser_pure]
  | items h =>
    obtain ⟨u, us, rfl, hu⟩ := items_head h
    have hlist := commaList_accepts (F := fun k => k = .comma ∨ k = .kwFrom)
      (fun _ _ t tail hx ht => parseSelectItem_accepts t tail hx ht) (.inl rfl) h t tail (.inr ht)
      (by simp [ht])
    rw [List.cons_append] at hlist ⊢
    rw [parseSelectList, parser_bind_ok (peek_cons _ _), if_neg hu, hlist]

lemma parseFromList_accepts {used : List Token} {refs : List TableRef} (t : Token)
    (tail : List Token) (h : Grammar.CommaList Grammar.Table used refs) (ht : t.kind ≠ .ident)
    (hne : t.kind ≠ .comma) : parseFromList (used ++ t :: tail) = .ok (refs, t :: tail) :=
  commaList_accepts (F := fun k => k ≠ .ident)
    (fun _ _ t tail hx ht => parseTableRef_accepts t tail hx ht) (by decide) h t tail ht hne

lemma parseWhere_accepts {used : List Token} {cond : Option Expr} (t : Token) (tail : List Token)
    (h : Grammar.Where used cond)
    (ht : t.kind = .kwLimit ∨ t.kind = .semicolon ∨ t.kind = .endOfInput) :
    parseWhere (used ++ t :: tail) = .ok (cond, t :: tail) := by
  cases h with
  | absent =>
    have hne : t.kind ≠ .kwWhere := by rcases ht with h | h | h <;> rw [h] <;> decide
    rw [List.nil_append, parseWhere, parser_bind_ok (tryConsume_of_ne _ hne),
      if_neg Bool.false_ne_true, parser_pure]
  | cond hw he =>
    have hends : endsExpr t.kind = true := by rcases ht with h | h | h <;> rw [h] <;> rfl
    rw [List.cons_append, parseWhere, parser_bind_ok (tryConsume_of_kind _ hw (by decide)),
      if_pos rfl, parser_bind_ok (parseExpr_accepts t tail he hends), parser_pure]

lemma parseLimit_accepts {used : List Token} {limit : Word} (t : Token) (tail : List Token)
    (h : Grammar.Limit used limit) (hpos : ∀ u ∈ used, u.intVal.slt 0 = false)
    (ht : t.kind ≠ .kwLimit) : parseLimit (used ++ t :: tail) = .ok (limit, t :: tail) := by
  cases h with
  | absent =>
    rw [List.nil_append, parseLimit, parser_bind_ok (tryConsume_of_ne _ ht),
      if_neg Bool.false_ne_true, parser_pure]
  | @count l m hl hm =>
    have hneg : m.intVal.slt 0 = false := hpos m (by simp)
    simp only [List.cons_append, List.nil_append]
    rw [parseLimit, parser_bind_ok (tryConsume_of_kind _ hl (by decide)), if_pos rfl,
      parser_bind_ok (expect_of_kind _ _ hm (by decide)), hneg, if_neg Bool.false_ne_true,
      parser_pure]

lemma limit_head {used : List Token} {limit : Word} (h : Grammar.Limit used limit) (t : Token)
    (tail : List Token) : ∃ u us, used ++ t :: tail = u :: us ∧ (u = t ∨ u.kind = .kwLimit) := by
  cases h with
  | absent => exact ⟨t, tail, rfl, .inl rfl⟩
  | count hl _ => exact ⟨_, _, rfl, .inr hl⟩

lemma semicolon_head {used : List Token} (h : Grammar.Semicolon used) (t : Token)
    (tail : List Token) : ∃ u us, used ++ t :: tail = u :: us ∧ (u = t ∨ u.kind = .semicolon) := by
  cases h with
  | absent => exact ⟨t, tail, rfl, .inl rfl⟩
  | present hs => exact ⟨_, _, rfl, .inr hs⟩

lemma parseSelect_accepts {body : List Token} {stmt : SelectStmt} {e : Token}
    (h : Grammar.Select body stmt) (hpos : ∀ u ∈ body, u.intVal.slt 0 = false)
    (he : e.kind = .endOfInput) : parseSelect (body ++ [e]) = .ok (stmt, [e]) := by
  cases h with
  | @mk s f list tables cond lim semi selectList fromList whereExpr limit hs hlist hf htables hcond
      hlim hsemi =>
    obtain ⟨t₁, tail₁, heq₁, ht₁⟩ := semicolon_head hsemi e []
    have hk₁ : t₁.kind = .semicolon ∨ t₁.kind = .endOfInput := by
      rcases ht₁ with rfl | h
      · exact .inr he
      · exact .inl h
    obtain ⟨t₂, tail₂, heq₂, ht₂⟩ := limit_head hlim t₁ tail₁
    have hk₂ : t₂.kind = .kwLimit ∨ t₂.kind = .semicolon ∨ t₂.kind = .endOfInput := by
      rcases ht₂ with rfl | h
      · exact .inr hk₁
      · exact .inl h
    have hbody : s :: (list ++ f :: (tables ++ (cond ++ (lim ++ semi)))) ++ [e] =
        s :: (list ++ f :: (tables ++ (cond ++ (lim ++ (semi ++ [e]))))) := by simp
    have hcondHead : ∃ t₃ tail₃, cond ++ t₂ :: tail₂ = t₃ :: tail₃ ∧
        (t₃ = t₂ ∨ t₃.kind = .kwWhere) := by
      cases hcond with
      | absent => exact ⟨t₂, tail₂, rfl, .inl rfl⟩
      | cond hw _ => exact ⟨_, _, rfl, .inr hw⟩
    obtain ⟨t₃, tail₃, heq₃, ht₃⟩ := hcondHead
    have hk₃ : t₃.kind ≠ .ident ∧ t₃.kind ≠ .comma := by
      rcases ht₃ with rfl | h
      · rcases hk₂ with h | h | h <;> rw [h] <;> decide
      · rw [h]; decide
    have hlimNe : t₁.kind ≠ .kwLimit := by rcases hk₁ with h | h <;> rw [h] <;> decide
    have hsemiStep : ∃ b, tryConsume .semicolon (semi ++ [e]) = .ok (b, [e]) := by
      cases hsemi with
      | absent => exact ⟨false, tryConsume_of_ne _ (by simp [he])⟩
      | present hs => exact ⟨true, tryConsume_of_kind _ hs (by decide)⟩
    obtain ⟨b, hb⟩ := hsemiStep
    rw [hbody, heq₁, heq₂, heq₃, parseSelect, parser_bind_ok (expect_of_kind _ _ hs (by decide)),
      parser_bind_ok (parseSelectList_accepts f _ hlist hf),
      parser_bind_ok (expect_of_kind _ _ hf (by decide)),
      parser_bind_ok (parseFromList_accepts t₃ tail₃ htables hk₃.1 hk₃.2), ← heq₃,
      parser_bind_ok (parseWhere_accepts t₂ tail₂ hcond hk₂), ← heq₂,
      parser_bind_ok (parseLimit_accepts t₁ tail₁ hlim
        (fun u hu => hpos u (by simp [hu])) hlimNe), ← heq₁, parser_bind_ok hb,
      parser_bind_ok (peek_cons _ _), if_pos he, parser_pure]

/-! ### Token vectors of the tokenizer -/

lemma stoll_nonneg {digits : List Char} {w : Word} (h : stoll digits = .ok w) :
    w.slt 0 = false := by
  unfold stoll at h
  split at h
  · next hlt =>
    cases h
    have hint : (BitVec.ofNat 64 (digitsValue digits)).toInt = digitsValue digits :=
      (BitVec.toInt_ofNat' ..).trans (Int.bmod_eq_of_le (by omega) (by omega))
    simp [BitVec.slt, hint]
  · cases h

lemma lookupKeyword_ne_end (upper : String) : lookupKeyword upper ≠ .endOfInput := by
  unfold lookupKeyword
  split_ifs <;> decide

lemma scanOperator_token {c : Char} {cs rest : List Char} {t : Token}
    (h : scanOperator c cs = .ok (t, rest)) :
    t.kind ≠ .endOfInput ∧ t.intVal.slt 0 = false := by
  unfold scanOperator at h
  split at h <;> first
    | (simp only [Except.ok.injEq, Prod.mk.injEq] at h
       obtain ⟨rfl, -⟩ := h
       exact ⟨by decide, by decide⟩)
    | (simp [throwRuntime] at h)

/-- END_OF_INPUT ends every token vector and occurs nowhere else; no value is negative. -/
theorem tokenizeLoop_shape (n : Nat) (cs : List Char) {tokens : List Token}
    (h : tokenizeLoop n cs = .ok tokens) : ∃ body e, tokens = body ++ [e] ∧
      e.kind = .endOfInput ∧ ∀ t ∈ body, t.kind ≠ .endOfInput ∧ t.intVal.slt 0 = false := by
  induction n generalizing cs tokens with
  | zero =>
    cases cs with
    | nil =>
      simp only [tokenizeLoop, Except.ok.injEq] at h
      exact ⟨[], _, h.symm, rfl, by simp⟩
    | cons c cs => simp [tokenizeLoop] at h
  | succ n ih =>
    have hcons : ∀ {t : Token} {rest : List Char} {tokens : List Token},
        t.kind ≠ .endOfInput ∧ t.intVal.slt 0 = false →
        (do let tokens ← tokenizeLoop n rest; pure (t :: tokens)) = Except.ok tokens →
        ∃ body e, tokens = body ++ [e] ∧ e.kind = .endOfInput ∧
          ∀ t ∈ body, t.kind ≠ .endOfInput ∧ t.intVal.slt 0 = false := by
      intro t rest tokens ht hrun
      cases hrest : tokenizeLoop n rest with
      | error err => simp [hrest, bind, Except.bind] at hrun
      | ok ts =>
        simp only [hrest, bind, Except.bind, pure, Except.pure, Except.ok.injEq] at hrun
        obtain ⟨body, e, rfl, he, hbody⟩ := ih rest hrest
        refine ⟨t :: body, e, by simp [← hrun], he, ?_⟩
        simpa using ⟨ht, hbody⟩
    cases cs with
    | nil =>
      simp only [tokenizeLoop, Except.ok.injEq] at h
      exact ⟨[], _, h.symm, rfl, by simp⟩
    | cons c cs =>
      rw [tokenizeLoop] at h
      by_cases hspace : isSpace c = true
      · rw [if_pos hspace] at h
        exact ih cs h
      rw [if_neg hspace] at h
      by_cases hdigit : c.isDigit = true
      · rw [if_pos hdigit] at h
        cases hval : stoll ((c :: cs).takeWhile Char.isDigit) with
        | error err => simp [hval, bind, Except.bind] at h
        | ok w =>
          simp only [hval, bind, Except.bind] at h
          exact hcons (t := ⟨.intLit, _, w⟩) ⟨by simp, stoll_nonneg hval⟩ h
      rw [if_neg hdigit] at h
      by_cases hident : isIdentStart c = true
      · rw [if_pos hident] at h
        exact hcons ⟨lookupKeyword_ne_end _, by rfl⟩ h
      rw [if_neg hident] at h
      cases hop : scanOperator c cs with
      | error err => simp [hop, bind, Except.bind] at h
      | ok p =>
        simp only [hop, bind, Except.bind] at h
        exact hcons (scanOperator_token hop) h

/-- The parser returns the tree of the tokens or throws. -/
lemma run_meets {body : List Token} {e : Token} (he : e.kind = .endOfInput)
    (hbody : ∀ t ∈ body, t.kind ≠ .endOfInput) :
    (∃ stmt, Parser.run (body ++ [e]) = .ok stmt ∧ Grammar.Select body stmt) ∨
      ∃ msg, Parser.run (body ++ [e]) = .error (.runtimeError msg) := by
  have hterm : Terminated (body ++ [e]) := ⟨body, e, rfl, he, hbody⟩
  rcases parseSelect_meets hterm with
    ⟨stmt, used, rest, hp, heq, hrest, hsel, e', tail, rfl, he'⟩ | ⟨msg, hp⟩
  · refine .inl ⟨stmt, by simp only [Parser.run, StateT.run', hp]; rfl, ?_⟩
    cases tail with
    | nil =>
      obtain ⟨rfl, -⟩ := List.append_inj' heq rfl
      exact hsel
    | cons u us =>
      have hmem : e' ∈ body := by
        have hdrop := congrArg List.dropLast heq
        rw [List.dropLast_concat, List.dropLast_append_of_ne_nil (by simp)] at hdrop
        simp [hdrop]
      exact absurd he' (hbody e' hmem)
  · exact .inr ⟨msg, by simp only [Parser.run, StateT.run', hp]; rfl⟩

/-- A statement that parses has a FROM entry. -/
lemma parseSQL_fromList {sql : String} {stmt : SelectStmt} (h : parseSQL sql = .ok stmt) :
    stmt.fromList ≠ [] := by
  unfold parseSQL at h
  cases htokens : tokenize sql with
  | error e =>
    rw [htokens] at h
    cases h
  | ok tokens =>
    rw [htokens] at h
    change Parser.run tokens = .ok stmt at h
    obtain ⟨body, e, rfl, he, hbody⟩ := tokenizeLoop_shape _ _ htokens
    rcases run_meets he fun t ht => (hbody t ht).1 with ⟨stmt', hrun, hsel⟩ | ⟨msg, hrun⟩
    · rw [h] at hrun
      cases hrun
      cases hsel with
      | mk _ _ _ htables =>
        cases htables with
        | one => exact List.cons_ne_nil _ _
        | cons => exact List.cons_ne_nil _ _
    · rw [h] at hrun
      cases hrun

/-- `parseSelect` succeeds on exactly the token sequences of the grammar and returns their tree,
of which there is only one; on every other sequence it throws a `runtime_error`. In neither case
is a token behind END_OF_INPUT read or a loop left unfinished. -/
theorem parseSelect_iff_grammar (sql : String) (tokens : List Token)
    (h : tokenize sql = .ok tokens) : ∃ body e, tokens = body ++ [e] ∧ e.kind = .endOfInput ∧
      (∀ t ∈ body, t.kind ≠ .endOfInput) ∧
      (∀ stmt, Parser.run tokens = .ok stmt ↔ Grammar.Select body stmt) ∧
      (∀ stmt stmt', Grammar.Select body stmt → Grammar.Select body stmt' → stmt = stmt') ∧
      ((¬ ∃ stmt, Grammar.Select body stmt) → ∃ msg, Parser.run tokens = .error (.runtimeError msg)) ∧
      ∀ what, Parser.run tokens ≠ .error (.undefinedBehaviour what) ∧
        Parser.run tokens ≠ .error .diverges := by
  obtain ⟨body, e, rfl, he, hbody⟩ := tokenizeLoop_shape _ _ h
  have hrun : ∀ stmt, Grammar.Select body stmt → Parser.run (body ++ [e]) = .ok stmt := by
    intro stmt hstmt
    have hacc := parseSelect_accepts hstmt (fun u hu => (hbody u hu).2) he
    simp only [Parser.run, StateT.run', hacc]
    rfl
  have hmeets := run_meets he fun t ht => (hbody t ht).1
  refine ⟨body, e, rfl, he, fun t ht => (hbody t ht).1, ?_, ?_, ?_, ?_⟩
  · intro stmt
    refine ⟨fun hok => ?_, hrun stmt⟩
    rcases hmeets with ⟨stmt', hok', hsel⟩ | ⟨msg, herr⟩
    · rw [hok] at hok'
      cases hok'
      exact hsel
    · rw [hok] at herr
      cases herr
  · intro stmt stmt' hs hs'
    have heq := (hrun stmt hs).symm.trans (hrun stmt' hs')
    cases heq
    rfl
  · intro hnone
    rcases hmeets with ⟨stmt, -, hsel⟩ | herr
    · exact absurd ⟨stmt, hsel⟩ hnone
    · exact herr
  · intro what
    rcases hmeets with ⟨stmt, hok, -⟩ | ⟨msg, herr⟩
    · rw [hok]
      exact ⟨by simp, by simp⟩
    · rw [herr]
      exact ⟨by simp, by simp⟩

def filteredSql : String :=
  "SELECT a.x + 1 AS z, y FROM pair a, t WHERE a.x = 2 AND (a.y < 5 OR a.y - 1 >= 7) LIMIT 3;"

def filteredStmt : SelectStmt where
  selectList := [.item (.binOp .add (.colRef ⟨"a", "x"⟩) (.intLit 1)) "z", .item (.colRef ⟨"", "y"⟩) ""]
  fromList := [⟨"pair", "a"⟩, ⟨"t", "t"⟩]
  whereExpr := some (.binOp .and (.binOp .eq (.colRef ⟨"a", "x"⟩) (.intLit 2))
    (.binOp .or (.binOp .lt (.colRef ⟨"a", "y"⟩) (.intLit 5))
      (.binOp .ge (.binOp .sub (.colRef ⟨"a", "y"⟩) (.intLit 1)) (.intLit 7))))
  limit := 3

theorem parseSelect_iff_grammar_filtered : ∃ body e, tokenize filteredSql = .ok (body ++ [e]) ∧
    Grammar.Select body filteredStmt ∧ ∀ stmt, Grammar.Select body stmt → stmt = filteredStmt := by
  have hparse : (tokenize filteredSql).bind Parser.run = .ok filteredStmt := by decide +kernel
  cases htokens : tokenize filteredSql with
  | error err =>
    rw [htokens] at hparse
    cases hparse
  | ok tokens =>
    rw [htokens] at hparse
    obtain ⟨body, e, rfl, -, -, hrun, hunique, -⟩ := parseSelect_iff_grammar filteredSql _ htokens
    have hderived := (hrun filteredStmt).mp hparse
    exact ⟨body, e, rfl, hderived, fun stmt hstmt => hunique stmt filteredStmt hstmt hderived⟩

end TidyTuples.Proofs
