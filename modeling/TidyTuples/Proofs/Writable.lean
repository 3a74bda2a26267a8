import TidyTuples.Proofs.Printing

/-!
# What the parser returns can be written

The names in a parsed statement are identifiers and its literals are not negative: the statements
with a text are exactly the results of the parser.
-/

namespace TidyTuples.Proofs

open Grammar

/-! ### Tokens -/

/-- An identifier has the text of one, and no value is negative. -/
def TokenWritable (t : Token) : Prop :=
  (t.kind = .ident → isIdentifier t.text = true) ∧ t.intVal.slt 0 = false

lemma end_writable : TokenWritable (.mk' .endOfInput "") := ⟨fun hkind => (by cases hkind), rfl⟩

lemma scanOperator_kind {c : Char} {cs rest : List Char} {t : Token}
    (h : scanOperator c cs = .ok (t, rest)) : t.kind ≠ .ident := by
  unfold scanOperator at h
  split at h <;> first
    | (simp only [Except.ok.injEq, Prod.mk.injEq] at h
       obtain ⟨rfl, -⟩ := h
       decide)
    | (simp [throwRuntime] at h)

/-- A word that is no keyword. -/
lemma word_isIdentifier {c : Char} {cs : List Char} (hc : isIdentStart c = true)
    (hkind : lookupKeyword (String.ofList (((c :: cs).takeWhile isIdentChar).map Char.toUpper)) =
      .ident) : isIdentifier (String.ofList ((c :: cs).takeWhile isIdentChar)) = true := by
  rw [List.takeWhile_cons_of_pos (isIdentStart_identChar hc).1] at hkind ⊢
  unfold isIdentifier
  rw [String.toList_ofList]
  dsimp only
  rw [hc, hkind, List.all_takeWhile]
  rfl

lemma tokenizeLoop_writable (n : Nat) (cs : List Char) {tokens : List Token}
    (h : tokenizeLoop n cs = .ok tokens) : ∀ t ∈ tokens, TokenWritable t := by
  induction n generalizing cs tokens with
  | zero =>
    cases cs with
    | nil =>
      obtain rfl := Except.ok.inj h
      exact List.forall_mem_singleton.mpr end_writable
    | cons c cs => cases h
  | succ n ih =>
    have hcons : ∀ {t : Token} {rest : List Char} {tokens : List Token}, TokenWritable t →
        (do let tokens ← tokenizeLoop n rest; pure (t :: tokens)) = Except.ok tokens →
        ∀ t ∈ tokens, TokenWritable t := by
      intro t rest tokens ht hrun
      cases hrest : tokenizeLoop n rest with
      | error err =>
        rw [hrest] at hrun
        cases hrun
      | ok ts =>
        rw [hrest] at hrun
        obtain rfl := Except.ok.inj hrun
        exact List.forall_mem_cons.mpr ⟨ht, ih rest hrest⟩
    cases cs with
    | nil =>
      obtain rfl := Except.ok.inj h
      exact List.forall_mem_singleton.mpr end_writable
    | cons c cs =>
      rw [tokenizeLoop] at h
      by_cases hspace : isSpace c = true
      · rw [if_pos hspace] at h
        exact ih cs h
      rw [if_neg hspace] at h
      by_cases hdigit : c.isDigit = true
      · rw [if_pos hdigit] at h
        dsimp only at h
        cases hval : stoll ((c :: cs).takeWhile Char.isDigit) with
        | error err =>
          rw [hval] at h
          cases h
        | ok w =>
          rw [hval] at h
          exact hcons ⟨fun hkind => (by cases hkind), stoll_nonneg hval⟩ h
      rw [if_neg hdigit] at h
      by_cases hident : isIdentStart c = true
      · rw [if_pos hident] at h
        exact hcons ⟨word_isIdentifier hident, rfl⟩ h
      rw [if_neg hident] at h
      cases hop : scanOperator c cs with
      | error err =>
        rw [hop] at h
        cases h
      | ok p =>
        rw [hop] at h
        exact hcons ⟨fun hkind => absurd hkind (scanOperator_kind hop), (scanOperator_token hop).2⟩ h

/-! ### Phrases -/

mutual

lemma orExpr_writable {ts : List Token} {e : Expr} (h : OrExpr ts e)
    (hts : ∀ t ∈ ts, TokenWritable t) : e.isWritable = true :=
  match h with
  | .single h => andExpr_writable h hts
  | .or hl _ hr => by
    rw [Expr.isWritable, orExpr_writable hl fun t ht => hts t (List.mem_append_left _ ht),
      andExpr_writable hr fun t ht => hts t (List.mem_append_right _ (List.mem_cons_of_mem _ ht))]
    rfl

lemma andExpr_writable {ts : List Token} {e : Expr} (h : AndExpr ts e)
    (hts : ∀ t ∈ ts, TokenWritable t) : e.isWritable = true :=
  match h with
  | .single h => compExpr_writable h hts
  | .and hl _ hr => by
    rw [Expr.isWritable, andExpr_writable hl fun t ht => hts t (List.mem_append_left _ ht),
      compExpr_writable hr fun t ht => hts t (List.mem_append_right _ (List.mem_cons_of_mem _ ht))]
    rfl

lemma compExpr_writable {ts : List Token} {e : Expr} (h : CompExpr ts e)
    (hts : ∀ t ∈ ts, TokenWritable t) : e.isWritable = true :=
  match h with
  | .single h => addExpr_writable h hts
  | .comp hl _ hr => by
    rw [Expr.isWritable, addExpr_writable hl fun t ht => hts t (List.mem_append_left _ ht),
      addExpr_writable hr fun t ht => hts t (List.mem_append_right _ (List.mem_cons_of_mem _ ht))]
    rfl

lemma addExpr_writable {ts : List Token} {e : Expr} (h : AddExpr ts e)
    (hts : ∀ t ∈ ts, TokenWritable t) : e.isWritable = true :=
  match h with
  | .single h => primary_writable h hts
  | .add hl _ hr => by
    rw [Expr.isWritable, addExpr_writable hl fun t ht => hts t (List.mem_append_left _ ht),
      primary_writable hr fun t ht => hts t (List.mem_append_right _ (List.mem_cons_of_mem _ ht))]
    rfl

lemma primary_writable {ts : List Token} {e : Expr} (h : Primary ts e)
    (hts : ∀ t ∈ ts, TokenWritable t) : e.isWritable = true :=
  match h with
  | .intLit (t := t) _ => by
    rw [Expr.isWritable, (hts t List.mem_cons_self).2]
    rfl
  | .column (t := t) ht => by
    rw [Expr.isWritable, (hts t List.mem_cons_self).1 ht]
    rfl
  | .qualified (t := t) (c := c) ht _ hc => by
    rw [Expr.isWritable, (hts t List.mem_cons_self).1 ht, (hts c (by simp)).1 hc, Bool.or_true]
    rfl
  | .paren _ h _ =>
    orExpr_writable h fun t ht => hts t (List.mem_cons_of_mem _ (List.mem_append_left _ ht))

end
/-- Every member of a comma list is one of its phrases. -/
lemma commaList_forall {α : Type} {R : List Token → α → Prop} {P : α → Prop}
    (hR : ∀ ts x, R ts x → (∀ t ∈ ts, TokenWritable t) → P x) {ts : List Token} {xs : List α}
    (h : CommaList R ts xs) (hts : ∀ t ∈ ts, TokenWritable t) : ∀ x ∈ xs, P x := by
  induction h with
  | one hx =>
    intro x hmem
    rw [List.mem_singleton.mp hmem]
    exact hR _ _ hx hts
  | cons hx _ _ ih =>
    have hfirst := hR _ _ hx fun t ht => hts t (List.mem_append_left _ ht)
    have hrest := ih fun t ht => hts t (List.mem_append_right _ (List.mem_cons_of_mem _ ht))
    exact List.forall_mem_cons.mpr ⟨hfirst, hrest⟩

lemma commaList_ne_nil {α : Type} {R : List Token → α → Prop} {ts : List Token} {xs : List α}
    (h : CommaList R ts xs) : xs ≠ [] := by
  cases h <;> exact List.cons_ne_nil _ _

lemma item_writable (ts : List Token) (item : SelectItem) (h : Item ts item)
    (hts : ∀ t ∈ ts, TokenWritable t) : item.isWritable = true := by
  cases h with
  | plain he =>
    rw [SelectItem.isWritable, orExpr_writable he hts]
    rfl
  | @named ts a n e he _ hn =>
    rw [SelectItem.isWritable, orExpr_writable he fun t ht => hts t (List.mem_append_left _ ht),
      (hts n (List.mem_append_right _ (by simp))).1 hn, Bool.or_true]
    rfl

lemma table_writable (ts : List Token) (ref : TableRef) (h : Table ts ref)
    (hts : ∀ t ∈ ts, TokenWritable t) :
    isIdentifier ref.tableName = true ∧ isIdentifier ref.aliasName = true := by
  cases h with
  | @plain t ht =>
    have hname := (hts t List.mem_cons_self).1 ht
    exact ⟨hname, hname⟩
  | @aliased t a ht ha =>
    exact ⟨(hts t List.mem_cons_self).1 ht, (hts a (List.mem_cons_of_mem _ List.mem_cons_self)).1 ha⟩

lemma where_writable {ts : List Token} {cond : Option Expr} (h : Where ts cond)
    (hts : ∀ t ∈ ts, TokenWritable t) : ∀ e ∈ cond, e.isWritable = true := by
  cases h with
  | absent =>
    intro e he
    cases he
  | cond _ he =>
    rintro _ ⟨⟩
    exact orExpr_writable he fun t ht => hts t (List.mem_cons_of_mem _ ht)

lemma limit_writable {ts : List Token} {limit : Word} (h : Limit ts limit)
    (hts : ∀ t ∈ ts, TokenWritable t) : limit = noLimit ∨ limit.slt 0 = false := by
  cases h with
  | absent => exact .inl rfl
  | @count l n _ _ => exact .inr (hts n (List.mem_cons_of_mem _ List.mem_cons_self)).2

lemma select_writable {ts : List Token} {stmt : SelectStmt} (h : Select ts stmt)
    (hts : ∀ t ∈ ts, TokenWritable t) : stmt.Writable := by
  cases h with
  | @mk s f list tables cond lim semi selectList fromList whereExpr limit _ hlist _ htables hcond hlim
      _ =>
    have hlistTokens : ∀ t ∈ list, TokenWritable t := fun t ht => hts t (by simp [ht])
    constructor
    · cases hlist with
      | star => exact .inl rfl
      | items hitems =>
        exact .inr ⟨commaList_ne_nil hitems, commaList_forall item_writable hitems hlistTokens⟩
    · exact commaList_ne_nil htables
    · exact commaList_forall table_writable htables fun t ht => hts t (by simp [ht])
    · exact where_writable hcond fun t ht => hts t (by simp [ht])
    · exact limit_writable hlim fun t ht => hts t (by simp [ht])

/-- A parsed statement can be written. -/
theorem parseSQL_writable {sql : String} {stmt : SelectStmt} (h : parseSQL sql = .ok stmt) :
    stmt.Writable := by
  unfold parseSQL at h
  cases htokens : tokenize sql with
  | error e =>
    rw [htokens] at h
    cases h
  | ok tokens =>
    rw [htokens] at h
    change Parser.run tokens = .ok stmt at h
    have hall := tokenizeLoop_writable _ _ htokens
    obtain ⟨body, e, rfl, he, hbody⟩ := tokenizeLoop_shape _ _ htokens
    rcases run_meets he fun t ht => (hbody t ht).1 with ⟨stmt', hrun, hsel⟩ | ⟨msg, hrun⟩
    · rw [h] at hrun
      cases hrun
      exact select_writable hsel fun t ht => hall t (List.mem_append_left _ ht)
    · rw [h] at hrun
      cases hrun

end TidyTuples.Proofs
