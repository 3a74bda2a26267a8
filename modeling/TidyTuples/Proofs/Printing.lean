import TidyTuples.Sql.Printer
import TidyTuples.Proofs.Parsing
import Mathlib.Data.List.Forall2

/-!
# Parsing undoes printing

A rendering of lexemes is tokenized into one token for each lexeme, because white space ends every
longest match. The tokens of a printed phrase are a phrase of the grammar at the level it was
printed for, and the parser returns the tree of that phrase.
-/

namespace TidyTuples.Proofs

/-- What the parser sees of a lexeme: the raw text of a keyword or operator does not count. -/
def Denotes : Lexeme → Token → Prop
  | .symbol kind, t => t.kind = kind
  | .ident name, t => t.kind = .ident ∧ t.text = name
  | .intLit val, t => t.kind = .intLit ∧ t.intVal = val

/-! ### Tokenizing a rendering -/

def Tokenizes (cs : List Char) (tokens : List Token) : Prop :=
  ∀ n, cs.length ≤ n → tokenizeLoop n cs = .ok tokens

lemma tokenizes_nil : Tokenizes [] [.mk' .endOfInput ""] := by
  intro n _
  cases n <;> rfl

lemma tokenizes_blank {gap cs : List Char} {tokens : List Token} (hgap : Blank gap)
    (h : Tokenizes cs tokens) : Tokenizes (gap ++ cs) tokens := by
  induction gap with
  | nil => exact h
  | cons c gap ih =>
    intro n hn
    cases n with
    | zero => simp at hn
    | succ n =>
      simp only [Blank, List.all_cons, Bool.and_eq_true] at hgap
      rw [List.cons_append, tokenizeLoop, if_pos hgap.1]
      exact ih hgap.2 n (by simpa using hn)

/-- The text ends here or goes on with white space. -/
def Stops (cs : List Char) : Prop := ∀ c ∈ cs.head?, isSpace c = true

lemma isAlpha_eq (c : Char) : c.isAlpha =
    (decide (65 ≤ c.val ∧ c.val ≤ 90) || (97 ≤ c.val && c.val ≤ 122)) := rfl

lemma isSpace_not_identChar {c : Char} (h : isSpace c = true) : isIdentChar c = false := by
  simp only [isSpace, Bool.or_eq_true, Bool.and_eq_true, beq_iff_eq, decide_eq_true_eq] at h
  rcases h with rfl | ⟨hlow, hhigh⟩
  · rfl
  · have hval : c.val.toNat = c.toNat := rfl
    simp [isIdentChar, Char.isAlphanum, isAlpha_eq, Char.isDigit, UInt32.le_iff_toNat_le,
      Char.ext_iff, UInt32.toNat_inj.symm] at *
    omega

lemma isSpace_not_digit {c : Char} (h : isSpace c = true) : c.isDigit = false := by
  have hident := isSpace_not_identChar h
  simp only [isIdentChar, Char.isAlphanum, Bool.or_eq_false_iff] at hident
  exact hident.1.2

lemma isIdentStart_identChar {c : Char} (h : isIdentStart c = true) :
    isIdentChar c = true ∧ c.isDigit = false := by
  have hval : c.val.toNat = c.toNat := rfl
  simp [isIdentStart, isIdentChar, Char.isAlphanum, isAlpha_eq, Char.isDigit,
    UInt32.le_iff_toNat_le, Char.ext_iff, UInt32.toNat_inj.symm] at *
  omega

lemma isAlpha_of_toUpper {c : Char} (h : c.toUpper.isAlpha = true) : c.isAlpha = true := by
  unfold Char.toUpper at h
  split at h
  · next hlower =>
    have hle : 97 ≤ c.val ∧ c.val ≤ 122 := hlower
    simp [isAlpha_eq, hle]
  · exact h

lemma eq_of_toUpper {c : Char} (h : c.toUpper.isAlpha = false) : c.toUpper = c := by
  unfold Char.toUpper at h ⊢
  split
  · next hlower =>
    rw [dif_pos hlower] at h
    have hle := hlower.1
    have hge := hlower.2
    simp [isAlpha_eq, UInt32.le_iff_toNat_le] at h hle hge
    have hsum := h.1
    omega
  · rfl

/-- A longest match of `p` ends where the white space begins. -/
lemma takeWhile_stops {p : Char → Bool} (hp : ∀ c, isSpace c = true → p c = false)
    {word rest : List Char} (hword : ∀ c ∈ word, p c = true) (hrest : Stops rest) :
    (word ++ rest).takeWhile p = word ∧ (word ++ rest).dropWhile p = rest := by
  rw [List.takeWhile_append_of_pos hword, List.dropWhile_append_of_pos hword]
  cases rest with
  | nil => simp
  | cons c rest =>
    have hc := hp c (hrest c rfl)
    simp [hc]

section Words

variable {rest : List Char} {tokens : List Token} (hrest : Stops rest) (h : Tokenizes rest tokens)

include hrest h

lemma tokenizes_word {c : Char} {cs : List Char} (hc : isIdentStart c = true)
    (hcs : ∀ d ∈ cs, isIdentChar d = true) : Tokenizes (c :: cs ++ rest)
      (.mk' (lookupKeyword (String.ofList ((c :: cs).map Char.toUpper))) (String.ofList (c :: cs)) ::
        tokens) := by
  intro n hn
  cases n with
  | zero => simp at hn
  | succ n =>
    have hstart := isIdentStart_identChar hc
    have hword : ∀ d ∈ c :: cs, isIdentChar d = true := by
      simpa using ⟨hstart.1, hcs⟩
    have hspace : isSpace c ≠ true := by
      intro hspace
      simp [isSpace_not_identChar hspace] at hstart
    have hmatch := takeWhile_stops (fun _ => isSpace_not_identChar) hword hrest
    rw [List.cons_append] at hmatch ⊢
    rw [tokenizeLoop, if_neg hspace, if_neg (by simp [hstart.2]), if_pos hc, hmatch.1, hmatch.2,
      h n (by simp at hn; omega)]
    rfl

lemma tokenizes_number {digits : List Char} (hne : digits ≠ [])
    (hdigits : ∀ d ∈ digits, d.isDigit = true) (hval : digitsValue digits < 2 ^ 63) :
    Tokenizes (digits ++ rest)
      (⟨.intLit, String.ofList digits, BitVec.ofNat 64 (digitsValue digits)⟩ :: tokens) := by
  intro n hn
  have hmatch := takeWhile_stops (fun _ => isSpace_not_digit) hdigits hrest
  cases digits with
  | nil => exact absurd rfl hne
  | cons c cs =>
    cases n with
    | zero => simp at hn
    | succ n =>
      have hc : c.isDigit = true := hdigits c List.mem_cons_self
      have hspace : isSpace c ≠ true := by
        intro hspace
        simp [isSpace_not_digit hspace] at hc
      have hstoll : stoll (c :: cs) = .ok (BitVec.ofNat 64 (digitsValue (c :: cs))) := if_pos hval
      rw [List.cons_append] at hmatch ⊢
      rw [tokenizeLoop, if_neg hspace, if_pos hc, hmatch.1, hmatch.2]
      simp only [bind, Except.bind, hstoll, h n (by simp at hn; omega)]
      rfl

omit hrest in
lemma tokenizes_operator {c : Char} {cs : List Char} {t : Token} (hspace : isSpace c = false)
    (hdigit : c.isDigit = false) (hident : isIdentStart c = false)
    (hscan : scanOperator c (cs ++ rest) = .ok (t, rest)) :
    Tokenizes (c :: cs ++ rest) (t :: tokens) := by
  intro n hn
  cases n with
  | zero => simp at hn
  | succ n =>
    rw [List.cons_append, tokenizeLoop, if_neg (by simp [hspace]), if_neg (by simp [hdigit]),
      if_neg (by simp [hident]), hscan]
    simp only [bind, Except.bind, h n (by simp at hn; omega)]
    rfl

end Words

/-- A one-character operator that is also the start of a longer one is not continued by the white
space behind it. -/
lemma scanOperator_stops {rest : List Char} (hrest : Stops rest) :
    scanOperator '<' rest = .ok (.mk' .lt "<", rest) ∧
      scanOperator '>' rest = .ok (.mk' .gt ">", rest) := by
  cases rest with
  | nil => exact ⟨rfl, rfl⟩
  | cons c rest =>
    have hc : isSpace c = true := hrest c rfl
    have hgt : c ≠ '>' := fun h => by simp [h, isSpace] at hc
    have heq : c ≠ '=' := fun h => by simp [h, isSpace] at hc
    unfold scanOperator
    simp [hgt, heq]

lemma symbol_cases {kind : TokenKind} {text : String} (h : kind.symbol = some text) :
    (lookupKeyword text = kind ∧ text.toList ≠ [] ∧ text.toList.all Char.isAlpha = true) ∨
    (text.toList.any Char.isAlpha = false ∧ ∃ c cs, text.toList = c :: cs ∧
      isSpace c = false ∧ c.isDigit = false ∧ isIdentStart c = false ∧
      ∀ rest, Stops rest → scanOperator c (cs ++ rest) = .ok (.mk' kind text, rest)) := by
  cases kind <;> simp only [TokenKind.symbol, Option.some.injEq, reduceCtorEq] at h <;> subst h
  case lt =>
    exact .inr ⟨by decide, '<', [], rfl, rfl, rfl, rfl, fun _ h => (scanOperator_stops h).1⟩
  case gt =>
    exact .inr ⟨by decide, '>', [], rfl, rfl, rfl, rfl, fun _ h => (scanOperator_stops h).2⟩
  case ne => exact .inr ⟨by decide, '<', ['>'], rfl, rfl, rfl, rfl, fun _ _ => rfl⟩
  case le => exact .inr ⟨by decide, '<', ['='], rfl, rfl, rfl, rfl, fun _ _ => rfl⟩
  case ge => exact .inr ⟨by decide, '>', ['='], rfl, rfl, rfl, rfl, fun _ _ => rfl⟩
  all_goals first
    | exact .inl ⟨by decide, by decide, by decide⟩
    | exact .inr ⟨by decide, _, [], rfl, rfl, rfl, rfl, fun _ _ => rfl⟩

section Lexemes

variable {rest : List Char} {tokens : List Token} (hrest : Stops rest) (h : Tokenizes rest tokens)

include hrest h

lemma symbol_tokenizes {kind : TokenKind} {cs : List Char} (hcs : (Lexeme.symbol kind).Spelled cs) :
    ∃ t, Denotes (.symbol kind) t ∧ Tokenizes (cs ++ rest) (t :: tokens) := by
  have hupper : (String.ofList (cs.map Char.toUpper)).toList = cs.map Char.toUpper :=
    String.toList_ofList
  rcases symbol_cases hcs with ⟨hkind, hne, halpha⟩ |
    ⟨halpha, c, ds, htext, hspace, hdigit, hident, hscan⟩
  · rw [hupper] at hne halpha
    have hletters : ∀ c ∈ cs, c.isAlpha = true :=
      fun c hc => isAlpha_of_toUpper (List.all_eq_true.mp halpha _ (List.mem_map_of_mem hc))
    cases cs with
    | nil => exact absurd rfl hne
    | cons c cs =>
      have hc : isIdentStart c = true := by simp [isIdentStart, hletters c List.mem_cons_self]
      have hword : ∀ d ∈ cs, isIdentChar d = true := by
        intro d hd
        simp [isIdentChar, Char.isAlphanum, hletters d (List.mem_cons_of_mem c hd)]
      refine ⟨_, ?_, tokenizes_word hrest h hc hword⟩
      exact hkind
  · rw [hupper] at halpha htext
    have hsame : cs.map Char.toUpper = cs := by
      conv_rhs => rw [← List.map_id cs]
      apply List.map_congr_left
      intro d hd
      have hd' := List.any_eq_false.mp halpha _ (List.mem_map_of_mem hd)
      exact eq_of_toUpper (Bool.eq_false_iff.mpr hd')
    rw [hsame] at htext
    subst htext
    refine ⟨_, ?_, tokenizes_operator h hspace hdigit hident (hscan rest hrest)⟩
    rfl

lemma ident_tokenizes {name : String} (hname : isIdentifier name = true) :
    ∃ t, Denotes (.ident name) t ∧ Tokenizes (name.toList ++ rest) (t :: tokens) := by
  unfold isIdentifier at hname
  cases hlist : name.toList with
  | nil => simp [hlist] at hname
  | cons c cs =>
    simp only [hlist, Bool.and_eq_true, List.all_eq_true, beq_iff_eq] at hname
    have htext : String.ofList (c :: cs) = name := by rw [← hlist, String.ofList_toList]
    exact ⟨_, ⟨hname.2, htext⟩, tokenizes_word hrest h hname.1.1 hname.1.2⟩

lemma intLit_tokenizes {val : Word} {cs : List Char} (hval : val.slt 0 = false)
    (hcs : (Lexeme.intLit val).Spelled cs) :
    ∃ t, Denotes (.intLit val) t ∧ Tokenizes (cs ++ rest) (t :: tokens) := by
  obtain ⟨hne, hdigits, hdec⟩ := hcs
  have hlt : digitsValue cs < 2 ^ 63 := by
    rw [hdec]
    have hmsb : val.msb = false := BitVec.slt_zero_eq_msb.symm.trans hval
    have hbound := BitVec.msb_eq_false_iff_two_mul_lt.mp hmsb
    omega
  refine ⟨_, ⟨rfl, ?_⟩, tokenizes_number hrest h hne (List.all_eq_true.mp hdigits) hlt⟩
  rw [hdec, BitVec.ofNat_toNat, BitVec.setWidth_eq]

lemma lexeme_tokenizes {l : Lexeme} {cs : List Char} (hl : l.isWritable = true) (hcs : l.Spelled cs) :
    ∃ t, Denotes l t ∧ Tokenizes (cs ++ rest) (t :: tokens) := by
  cases l with
  | symbol kind => exact symbol_tokenizes hrest h hcs
  | ident name =>
    subst hcs
    exact ident_tokenizes hrest h hl
  | intLit val => exact intLit_tokenizes hrest h (by simpa [Lexeme.isWritable] using hl) hcs

end Lexemes

/-- The induction is on the rendering: each lexeme is followed by white space or by the end. -/
theorem renders_tokenizes {ls : List Lexeme} {text : List Char} (h : Renders ls text)
    (hvalid : ∀ l ∈ ls, l.isWritable = true) : ∃ ts, List.Forall₂ Denotes ls ts ∧
      Tokenizes text (ts ++ [.mk' .endOfInput ""]) := by
  induction h with
  | nil => exact ⟨[], .nil, tokenizes_nil⟩
  | @cons l ls cs gap rest hcs hgap hsep hrest ih =>
    obtain ⟨ts, hts, htok⟩ := ih (fun l' hl' => hvalid l' (List.mem_cons_of_mem l hl'))
    have hstops : Stops (gap ++ rest) := by
      cases gap with
      | cons c gap =>
        rintro _ ⟨⟩
        simp only [Blank, List.all_cons, Bool.and_eq_true] at hgap
        exact hgap.1
      | nil =>
        have hls : ls = [] := by
          by_contra hne
          exact hsep hne rfl
        subst hls
        cases hrest
        rintro _ ⟨⟩
    obtain ⟨t, ht, hlex⟩ :=
      lexeme_tokenizes hstops (tokenizes_blank hgap htok) (hvalid l List.mem_cons_self) hcs
    exact ⟨t :: ts, .cons ht hts, hlex⟩

/-! ### Printed phrases are phrases of the grammar -/

/-- The nonterminals from `orExpr`, level 0, to `primaryExpr`. -/
def Derives : Nat → List Token → Expr → Prop
  | 0 => Grammar.OrExpr
  | 1 => Grammar.AndExpr
  | 2 => Grammar.CompExpr
  | 3 => Grammar.AddExpr
  | _ => Grammar.Primary

lemma denote_append {as bs : List Lexeme} {ts : List Token}
    (h : List.Forall₂ Denotes (as ++ bs) ts) : ∃ us vs, List.Forall₂ Denotes as us ∧
      List.Forall₂ Denotes bs vs ∧ ts = us ++ vs := by
  induction as generalizing ts with
  | nil => exact ⟨[], ts, .nil, h, rfl⟩
  | cons a as ih =>
    obtain ⟨t, us, ht, hus, rfl⟩ := List.forall₂_cons_left_iff.mp h
    obtain ⟨us, vs, has, hbs, rfl⟩ := ih hus
    exact ⟨t :: us, vs, .cons ht has, hbs, rfl⟩

lemma derives_pred {n : Nat} {ts : List Token} {e : Expr} (h : Derives (n + 1) ts e) :
    Derives n ts e := by
  match n with
  | 0 => exact .single h
  | 1 => exact .single h
  | 2 => exact .single h
  | 3 => exact .single h
  | _ + 4 => exact h

lemma derives_mono {m n : Nat} (hle : m ≤ n) {ts : List Token} {e : Expr} (h : Derives n ts e) :
    Derives m ts e := by
  induction hle with
  | refl => exact h
  | step _ ih => exact ih (derives_pred h)

lemma derives_binOp {op : BinOpKind} {ls rs : List Token} {t : Token} {l r : Expr}
    (hl : Derives op.leftLevel ls l) (ht : t.kind = op.token) (hr : Derives op.rightLevel rs r) :
    Derives op.level (ls ++ t :: rs) (.binOp op l r) := by
  cases op with
  | or => exact .or hl ht hr
  | and => exact .and hl ht hr
  | add => exact .add hl (by rw [ht]; exact .plus) hr
  | sub => exact .add hl (by rw [ht]; exact .minus) hr
  | eq => exact .comp hl (by rw [ht]; exact .eq) hr
  | ne => exact .comp hl (by rw [ht]; exact .ne) hr
  | lt => exact .comp hl (by rw [ht]; exact .lt) hr
  | gt => exact .comp hl (by rw [ht]; exact .gt) hr
  | le => exact .comp hl (by rw [ht]; exact .le) hr
  | ge => exact .comp hl (by rw [ht]; exact .ge) hr

/-- Parentheses raise an operand to the level of a primary expression. -/
lemma parenthesise_derives {need : Nat} (hneed : need ≤ 4) {e : Expr} {ls : List Lexeme}
    (he : ∀ ts, List.Forall₂ Denotes ls ts → Derives e.level ts e) {ts : List Token}
    (h : List.Forall₂ Denotes (parenthesise (e.level < need) ls) ts) : Derives need ts e := by
  unfold parenthesise at h
  split at h
  · obtain ⟨l, us, hl, hus, rfl⟩ := List.forall₂_cons_left_iff.mp h
    obtain ⟨vs, ws, hvs, hws, rfl⟩ := denote_append hus
    obtain ⟨r, us, hr, hnil, rfl⟩ := List.forall₂_cons_left_iff.mp hws
    cases hnil
    have horExpr : Derives 0 vs e := derives_mono (Nat.zero_le _) (he vs hvs)
    have hprimary : Derives 4 (l :: (vs ++ [r])) e := Grammar.Primary.paren hl horExpr hr
    exact derives_mono hneed hprimary
  · next hlevel =>
    simp only [decide_eq_true_eq, Nat.not_lt] at hlevel
    exact derives_mono hlevel (he ts h)

lemma columnRef_derives (ref : ColumnRef) {ts : List Token}
    (h : List.Forall₂ Denotes ref.lexemes ts) : Grammar.Primary ts (.colRef ref) := by
  unfold ColumnRef.lexemes at h
  split at h
  · next hnone =>
    obtain ⟨c, us, ⟨hc, hcol⟩, hnil, rfl⟩ := List.forall₂_cons_left_iff.mp h
    cases hnil
    have href : ref = ⟨"", c.text⟩ := by rw [hcol, ← hnone]
    rw [href]
    exact .column hc
  · obtain ⟨t, us, ⟨ht, htable⟩, hus, rfl⟩ := List.forall₂_cons_left_iff.mp h
    obtain ⟨d, vs, hd, hvs, rfl⟩ := List.forall₂_cons_left_iff.mp hus
    obtain ⟨c, ws, ⟨hc, hcol⟩, hnil, rfl⟩ := List.forall₂_cons_left_iff.mp hvs
    cases hnil
    have href : ref = ⟨t.text, c.text⟩ := by rw [htable, hcol]
    rw [href]
    exact .qualified ht hd hc

theorem expr_derives (e : Expr) {ts : List Token} (h : List.Forall₂ Denotes e.lexemes ts) :
    Derives e.level ts e := by
  induction e generalizing ts with
  | colRef ref => exact columnRef_derives ref h
  | intLit val =>
    obtain ⟨t, us, ⟨hkind, rfl⟩, hnil, rfl⟩ := List.forall₂_cons_left_iff.mp h
    cases hnil
    exact Grammar.Primary.intLit hkind
  | binOp op left right ihl ihr =>
    obtain ⟨ls, us, hls, hus, rfl⟩ := denote_append h
    obtain ⟨t, rs, ht, hrs, rfl⟩ := List.forall₂_cons_left_iff.mp hus
    have hleft : op.leftLevel ≤ 4 := by cases op <;> decide
    have hright : op.rightLevel ≤ 4 := by cases op <;> decide
    exact derives_binOp (parenthesise_derives hleft (fun _ => ihl) hls) ht
      (parenthesise_derives hright (fun _ => ihr) hrs)

lemma expr_orExpr {e : Expr} {ts : List Token} (h : List.Forall₂ Denotes e.lexemes ts) :
    Grammar.OrExpr ts e :=
  derives_mono (m := 0) (Nat.zero_le _) (expr_derives e h)

lemma commaSeparated_derives {α : Type} {lexemes : α → List Lexeme}
    {R : List Token → α → Prop} {xs : List α} (hne : xs ≠ [])
    (hitem : ∀ x ∈ xs, ∀ ts, List.Forall₂ Denotes (lexemes x) ts → R ts x) {ts : List Token}
    (h : List.Forall₂ Denotes (commaSeparated lexemes xs) ts) : Grammar.CommaList R ts xs := by
  induction xs generalizing ts with
  | nil => exact absurd rfl hne
  | cons x xs ih =>
    cases xs with
    | nil => exact .one (hitem x List.mem_cons_self ts h)
    | cons y ys =>
      obtain ⟨us, vs, hus, hvs, rfl⟩ := denote_append h
      obtain ⟨c, ws, hc, hws, rfl⟩ := List.forall₂_cons_left_iff.mp hvs
      have htail := ih (List.cons_ne_nil y ys)
        (fun z hz => hitem z (List.mem_cons_of_mem x hz)) hws
      exact .cons (hitem x List.mem_cons_self us hus) hc htail

lemma item_derives {item : SelectItem} (hitem : item.isWritable = true) (ts : List Token)
    (h : List.Forall₂ Denotes item.lexemes ts) : Grammar.Item ts item := by
  cases item with
  | star => cases hitem
  | item e aliasName =>
    obtain ⟨us, vs, hus, hvs, rfl⟩ := denote_append h
    split at hvs
    · next hnone =>
      cases hvs
      rw [hnone, List.append_nil]
      exact .plain (expr_orExpr hus)
    · obtain ⟨a, ws, ha, hws, rfl⟩ := List.forall₂_cons_left_iff.mp hvs
      obtain ⟨n, ws, ⟨hn, rfl⟩, hnil, rfl⟩ := List.forall₂_cons_left_iff.mp hws
      cases hnil
      exact .named (expr_orExpr hus) ha hn

lemma table_derives {ref : TableRef} (ts : List Token)
    (h : List.Forall₂ Denotes ref.lexemes ts) : Grammar.Table ts ref := by
  unfold TableRef.lexemes at h
  split at h
  · next hsame =>
    obtain ⟨t, us, ⟨ht, hname⟩, hnil, rfl⟩ := List.forall₂_cons_left_iff.mp h
    cases hnil
    have href : ref = ⟨t.text, t.text⟩ := by
      rw [hname]
      exact congrArg (TableRef.mk ref.tableName) hsame
    rw [href]
    exact .plain ht
  · obtain ⟨t, us, ⟨ht, hname⟩, hus, rfl⟩ := List.forall₂_cons_left_iff.mp h
    obtain ⟨a, vs, ⟨ha, halias⟩, hnil, rfl⟩ := List.forall₂_cons_left_iff.mp hus
    cases hnil
    have href : ref = ⟨t.text, a.text⟩ := by rw [hname, halias]
    rw [href]
    exact .aliased ht ha

lemma where_derives {cond : Option Expr} {ts : List Token}
    (h : List.Forall₂ Denotes (whereLexemes cond) ts) : Grammar.Where ts cond := by
  cases cond with
  | none =>
    cases h
    exact .absent
  | some e =>
    obtain ⟨w, us, hw, hus, rfl⟩ := List.forall₂_cons_left_iff.mp h
    exact .cond hw (expr_orExpr hus)

lemma limit_derives {limit : Word} {ts : List Token}
    (h : List.Forall₂ Denotes (limitLexemes limit) ts) : Grammar.Limit ts limit := by
  unfold limitLexemes at h
  split at h
  · next hnone =>
    cases h
    rw [hnone]
    exact .absent
  · obtain ⟨l, us, hl, hus, rfl⟩ := List.forall₂_cons_left_iff.mp h
    obtain ⟨n, us, ⟨hn, rfl⟩, hnil, rfl⟩ := List.forall₂_cons_left_iff.mp hus
    cases hnil
    exact .count hl hn

theorem select_derives {stmt : SelectStmt} (hstmt : stmt.Writable) {ts : List Token}
    (h : List.Forall₂ Denotes stmt.lexemes ts) : Grammar.Select ts stmt := by
  obtain ⟨s, ts₁, hs, h₁, rfl⟩ := List.forall₂_cons_left_iff.mp h
  obtain ⟨list, ts₂, hlist, h₂, rfl⟩ := denote_append h₁
  obtain ⟨f, ts₃, hf, h₃, rfl⟩ := List.forall₂_cons_left_iff.mp h₂
  obtain ⟨tables, ts₄, htables, h₄, rfl⟩ := denote_append h₃
  obtain ⟨cond, lim, hcond, hlim, rfl⟩ := denote_append h₄
  have hselect : Grammar.SelectList list stmt.selectList := by
    rcases hstmt.selectList with hstar | ⟨hne, hitems⟩
    · rw [hstar] at hlist ⊢
      obtain ⟨t, us, ht, hnil, rfl⟩ := List.forall₂_cons_left_iff.mp hlist
      cases hnil
      exact .star ht
    · exact .items (commaSeparated_derives hne (fun item hitem => item_derives (hitems item hitem))
        hlist)
  have htable : ∀ ref ∈ stmt.fromList, ∀ us, List.Forall₂ Denotes ref.lexemes us →
      Grammar.Table us ref := fun _ _ us hus => table_derives us hus
  have hfrom := commaSeparated_derives hstmt.fromList htable htables
  have hsel := Grammar.Select.mk hs hselect hf hfrom (where_derives hcond) (limit_derives hlim)
    Grammar.Semicolon.absent
  rwa [List.append_nil] at hsel

/-! ### Every lexeme of a writable statement is writable -/

lemma parenthesise_writable {needed : Bool} {ls : List Lexeme}
    (h : ∀ l ∈ ls, l.isWritable = true) : ∀ l ∈ parenthesise needed ls, l.isWritable = true := by
  intro l hl
  unfold parenthesise at hl
  split at hl
  · simp only [List.mem_cons, List.mem_append, List.not_mem_nil, or_false] at hl
    rcases hl with rfl | hl | rfl
    · rfl
    · exact h l hl
    · rfl
  · exact h l hl

lemma expr_lexemes_writable {e : Expr} (h : e.isWritable = true) :
    ∀ l ∈ e.lexemes, l.isWritable = true := by
  induction e with
  | colRef ref =>
    intro l hl
    simp only [Expr.isWritable, Bool.and_eq_true, Bool.or_eq_true, beq_iff_eq] at h
    simp only [Expr.lexemes, ColumnRef.lexemes] at hl
    split at hl
    · simp only [List.mem_singleton] at hl
      rw [hl]
      exact h.2
    · next hsome =>
      simp only [List.mem_cons, List.not_mem_nil, or_false] at hl
      rcases hl with rfl | rfl | rfl
      · exact h.1.resolve_left hsome
      · rfl
      · exact h.2
  | intLit val =>
    intro l hl
    simp only [Expr.lexemes, List.mem_singleton] at hl
    rw [hl]
    exact h
  | binOp op left right ihl ihr =>
    simp only [Expr.isWritable, Bool.and_eq_true] at h
    intro l hl
    simp only [Expr.lexemes, List.mem_append, List.mem_cons] at hl
    rcases hl with hl | rfl | hl
    · exact parenthesise_writable (ihl h.1) l hl
    · cases op <;> rfl
    · exact parenthesise_writable (ihr h.2) l hl

lemma commaSeparated_writable {α : Type} {lexemes : α → List Lexeme} {xs : List α}
    (h : ∀ x ∈ xs, ∀ l ∈ lexemes x, l.isWritable = true) :
    ∀ l ∈ commaSeparated lexemes xs, l.isWritable = true := by
  induction xs with
  | nil =>
    intro l hl
    cases hl
  | cons x xs ih =>
    have hx := h x List.mem_cons_self
    have hxs := ih (fun y hy => h y (List.mem_cons_of_mem x hy))
    cases xs with
    | nil => exact hx
    | cons y ys =>
      intro l hl
      simp only [commaSeparated, List.mem_append, List.mem_cons] at hl
      rcases hl with hl | rfl | hl
      · exact hx l hl
      · rfl
      · exact hxs l hl

lemma item_lexemes_writable {item : SelectItem} (h : item.isWritable = true) :
    ∀ l ∈ item.lexemes, l.isWritable = true := by
  cases item with
  | star => cases h
  | item e aliasName =>
    simp only [SelectItem.isWritable, Bool.and_eq_true, Bool.or_eq_true, beq_iff_eq] at h
    intro l hl
    rcases List.mem_append.mp hl with hl | hl
    · exact expr_lexemes_writable h.1 l hl
    · split at hl
      · cases hl
      · next hsome =>
        simp only [List.mem_cons, List.not_mem_nil, or_false] at hl
        rcases hl with rfl | rfl
        · rfl
        · exact h.2.resolve_left hsome

lemma table_lexemes_writable {ref : TableRef} (hname : isIdentifier ref.tableName = true)
    (halias : isIdentifier ref.aliasName = true) : ∀ l ∈ ref.lexemes, l.isWritable = true := by
  intro l hl
  unfold TableRef.lexemes at hl
  split at hl
  · rw [List.mem_singleton.mp hl]
    exact hname
  · simp only [List.mem_cons, List.not_mem_nil, or_false] at hl
    rcases hl with rfl | rfl
    · exact hname
    · exact halias

lemma select_lexemes_writable {stmt : SelectStmt} (h : stmt.Writable) :
    ∀ l ∈ stmt.lexemes, l.isWritable = true := by
  have hlist : ∀ l ∈ commaSeparated SelectItem.lexemes stmt.selectList, l.isWritable = true := by
    rcases h.selectList with hstar | ⟨-, hitems⟩
    · rw [hstar]
      decide
    · exact commaSeparated_writable (fun item hitem => item_lexemes_writable (hitems item hitem))
  have htables : ∀ l ∈ commaSeparated TableRef.lexemes stmt.fromList, l.isWritable = true :=
    commaSeparated_writable
      (fun ref href => table_lexemes_writable (h.tables ref href).1 (h.tables ref href).2)
  have hcond : ∀ l ∈ whereLexemes stmt.whereExpr, l.isWritable = true := by
    cases hwhere : stmt.whereExpr with
    | none => simp [whereLexemes]
    | some e => simpa [whereLexemes, Lexeme.isWritable, TokenKind.symbol] using
        expr_lexemes_writable (h.whereExpr e hwhere)
  have hlim : ∀ l ∈ limitLexemes stmt.limit, l.isWritable = true := by
    unfold limitLexemes
    split
    · simp
    · next hsome =>
      simpa [Lexeme.isWritable, TokenKind.symbol] using h.limit.resolve_left hsome
  intro l hl
  simp only [SelectStmt.lexemes, List.mem_cons, List.mem_append] at hl
  rcases hl with rfl | hl | rfl | hl | hl | hl
  · rfl
  · exact hlist l hl
  · rfl
  · exact htables l hl
  · exact hcond l hl
  · exact hlim l hl

/-! ### Every writable statement has a text -/

lemma lexeme_text_spelled {l : Lexeme} (h : l.isWritable = true) : l.Spelled l.text := by
  cases l with
  | symbol kind => cases kind <;> first | decide | cases h
  | ident name => rfl
  | intLit val =>
    have hval : digitsValue (Nat.toDigits 10 val.toNat) = val.toNat :=
      Nat.ofDigitChars_eq_foldl.symm.trans Nat.ofDigitChars_ten_toDigits
    have hdigits : ∀ c ∈ Nat.toDigits 10 val.toNat, c.isDigit = true :=
      fun c hc => Nat.isDigit_of_mem_toDigits (by decide) (by decide) hc
    exact ⟨Nat.toDigits_ne_nil, List.all_eq_true.mpr hdigits, hval⟩

theorem prints_toSQL {stmt : SelectStmt} (h : stmt.Writable) : Prints stmt stmt.toSQL := by
  have hrenders : ∀ ls : List Lexeme, (∀ l ∈ ls, l.isWritable = true) →
      Renders ls (ls.flatMap fun l => l.text ++ [' ']) := by
    intro ls hls
    induction ls with
    | nil => exact .nil
    | cons l ls ih =>
      have htail := ih (fun l' hl' => hls l' (List.mem_cons_of_mem l hl'))
      rw [List.flatMap_cons, List.append_assoc]
      exact .cons (lexeme_text_spelled (hls l List.mem_cons_self)) (by decide) (by simp) htail
  refine ⟨[], _, ?_, by decide, hrenders _ (select_lexemes_writable h)⟩
  rw [SelectStmt.toSQL, String.toList_ofList, List.nil_append]

/-- Whatever letter case the keywords have and whatever white space stands between the tokens, the
parser returns the statement that was printed. -/
theorem parseSQL_prints (stmt : SelectStmt) (hstmt : stmt.Writable) (sql : String)
    (h : Prints stmt sql) : parseSQL sql = .ok stmt := by
  obtain ⟨lead, text, hsql, hlead, htext⟩ := h
  obtain ⟨ts, hts, htok⟩ := renders_tokenizes htext (select_lexemes_writable hstmt)
  have htokens : tokenize sql = .ok (ts ++ [.mk' .endOfInput ""]) := by
    unfold tokenize
    rw [hsql]
    exact tokenizes_blank hlead htok _ (Nat.le_refl _)
  obtain ⟨body, e, heq, he, hbody⟩ := tokenizeLoop_shape _ _ htokens
  obtain ⟨rfl, hend⟩ := List.append_inj' heq rfl
  have hacc := parseSelect_accepts (select_derives hstmt hts) (fun u hu => (hbody u hu).2)
    (e := .mk' .endOfInput "") rfl
  unfold parseSQL
  rw [htokens]
  simp only [bind, Except.bind, Parser.run, StateT.run', hacc]
  rfl

/-- `select x from t where x - (y + 1) <> 5` -/
def nestedStmt : SelectStmt :=
  ⟨[.item (.colRef ⟨"", "x"⟩) ""], [⟨"t", "t"⟩],
    some (.binOp .ne (.binOp .sub (.colRef ⟨"", "x"⟩) (.binOp .add (.colRef ⟨"", "y"⟩) (.intLit 1)))
      (.intLit 5)), noLimit⟩

lemma nestedStmt_writable : nestedStmt.Writable where
  selectList := .inr (by decide)
  fromList := by decide
  tables := by decide
  whereExpr := by
    rintro _ ⟨⟩
    decide
  limit := .inl rfl

lemma nestedStmt_prints : Prints nestedStmt "Select x\tfrom t WHERE  x - ( y + 01 ) <> 5" := by
  refine ⟨[], _, rfl, by decide, ?_⟩
  refine @Renders.cons _ _ "Select".toList [' '] _ (by decide) (by decide) (by decide) ?_
  refine @Renders.cons _ _ "x".toList ['\t'] _ (by decide) (by decide) (by decide) ?_
  refine @Renders.cons _ _ "from".toList [' '] _ (by decide) (by decide) (by decide) ?_
  refine @Renders.cons _ _ "t".toList [' '] _ (by decide) (by decide) (by decide) ?_
  refine @Renders.cons _ _ "WHERE".toList [' ', ' '] _ (by decide) (by decide) (by decide) ?_
  refine @Renders.cons _ _ "x".toList [' '] _ (by decide) (by decide) (by decide) ?_
  refine @Renders.cons _ _ "-".toList [' '] _ (by decide) (by decide) (by decide) ?_
  refine @Renders.cons _ _ "(".toList [' '] _ (by decide) (by decide) (by decide) ?_
  refine @Renders.cons _ _ "y".toList [' '] _ (by decide) (by decide) (by decide) ?_
  refine @Renders.cons _ _ "+".toList [' '] _ (by decide) (by decide) (by decide) ?_
  refine @Renders.cons _ _ "01".toList [' '] _ (by decide) (by decide) (by decide) ?_
  refine @Renders.cons _ _ ")".toList [' '] _ (by decide) (by decide) (by decide) ?_
  refine @Renders.cons _ _ "<>".toList [' '] _ (by decide) (by decide) (by decide) ?_
  refine @Renders.cons _ _ "5".toList [] _ (by decide) (by decide) (by decide) ?_
  exact .nil

theorem parseSQL_prints_nested : parseSQL nestedStmt.toSQL = .ok nestedStmt ∧
    parseSQL "Select x\tfrom t WHERE  x - ( y + 01 ) <> 5" = .ok nestedStmt :=
  ⟨parseSQL_prints nestedStmt nestedStmt_writable _ (prints_toSQL nestedStmt_writable),
    parseSQL_prints nestedStmt nestedStmt_writable _ nestedStmt_prints⟩

end TidyTuples.Proofs
