import TidyTuples.Proofs.Printing

/-!
# What the tokenizer reads

An iteration of the scanning loop skips a white-space character, reads one token that ends where
no longer match is possible, or throws. Everything about whole texts follows from these four cases.
-/

namespace TidyTuples

/-- The characters with which an operator or punctuation begins. -/
def isOperatorChar (c : Char) : Bool := c ∈ [',', '.', '*', '(', ')', '+', '-', ';', '=', '>', '<']

/-- Every other character is unexpected. -/
def isExpected (c : Char) : Bool := isSpace c || isIdentChar c || isOperatorChar c

/-- The longest runs of digits that do not go on from a letter, a digit or an underscore; `inWord`
says whether the text before ends with one. -/
def numbersOf : Bool → List Char → List (List Char)
  | _, [] => []
  | inWord, c :: cs =>
    if c.isDigit ∧ inWord = false then (c :: cs).takeWhile Char.isDigit :: numbersOf true cs
    else numbersOf (isIdentChar c) cs

/-- The numbers before the first unexpected character. -/
def numbersRead (sql : List Char) : List (List Char) := numbersOf false (sql.takeWhile isExpected)

/-- Whether a token of this kind could have been longer with the character `c`. -/
def TokenKind.extendsWith : TokenKind → Char → Bool
  | .intLit, c => c.isDigit
  | .ident, c | .kwSelect, c | .kwFrom, c | .kwWhere, c | .kwAnd, c | .kwOr, c | .kwNot, c
  | .kwAs, c | .kwLimit, c => isIdentChar c
  | _, _ => false

/-- The text without its white space. -/
def withoutSpace (cs : List Char) : List Char := cs.filter fun c => !isSpace c

/-- The outcomes that `parseSQL` documents: a result or a `std::runtime_error`. -/
def Documented {α : Type} (r : Except CppError α) : Prop :=
  (∃ x, r = .ok x) ∨ ∃ msg, r = .error (.runtimeError msg)

namespace Proofs

/-- A token that the scanner can read where `rest` follows. -/
inductive Scanned : Token → List Char → Prop
  | number {digits rest : List Char} : digits ≠ [] → (∀ d ∈ digits, d.isDigit = true) →
      digitsValue digits < 2 ^ 63 → (∀ c ∈ rest.head?, c.isDigit = false) →
      Scanned ⟨.intLit, String.ofList digits, BitVec.ofNat 64 (digitsValue digits)⟩ rest
  | word {c : Char} {cs rest : List Char} : isIdentStart c = true →
      (∀ d ∈ cs, isIdentChar d = true) → (∀ d ∈ rest.head?, isIdentChar d = false) →
      Scanned (.mk' (lookupKeyword (String.ofList ((c :: cs).map Char.toUpper)))
        (String.ofList (c :: cs))) rest
  | operator {c : Char} {cs rest : List Char} {kind : TokenKind} : isOperatorChar c = true →
      (∀ d ∈ cs, isOperatorChar d = true) → kind ≠ .endOfInput → (∀ d, kind.extendsWith d = false) →
      (∀ rest', Stops rest' → scanOperator c (cs ++ rest') =
        .ok (.mk' kind (String.ofList (c :: cs)), rest')) →
      Scanned (.mk' kind (String.ofList (c :: cs))) rest

/-! ### One iteration -/

lemma isOperatorChar_spec {c : Char} (h : isOperatorChar c = true) :
    isSpace c = false ∧ c.isDigit = false ∧ isIdentStart c = false ∧ isIdentChar c = false := by
  have hall : ([',', '.', '*', '(', ')', '+', '-', ';', '=', '>', '<'].all fun c =>
      !isSpace c && !c.isDigit && !isIdentStart c && !isIdentChar c) = true := by decide
  have hc := List.all_eq_true.mp hall c (by simpa [isOperatorChar] using h)
  simpa [and_assoc] using hc

section Operators

variable {c : Char} {kind : TokenKind}

/-- An operator is read at `c :: cs`, and white space behind it would not change it. -/
def ReadsOperator (c : Char) (cs : List Char) : Prop :=
  ∃ kind ds rest, cs = ds ++ rest ∧
    scanOperator c cs = .ok (.mk' kind (String.ofList (c :: ds)), rest) ∧
    Scanned (.mk' kind (String.ofList (c :: ds))) rest

lemma readsOperator_one (kind : TokenKind) (cs : List Char) (hc : isOperatorChar c = true)
    (hkind : kind ≠ .endOfInput) (hext : ∀ d, kind.extendsWith d = false)
    (hstops : ∀ rest, Stops rest →
      scanOperator c rest = .ok (.mk' kind (String.ofList [c]), rest))
    (hscan : scanOperator c cs = .ok (.mk' kind (String.ofList [c]), cs)) : ReadsOperator c cs :=
  ⟨kind, [], cs, rfl, hscan, .operator hc (by simp) hkind hext hstops⟩

lemma readsOperator_two (kind : TokenKind) (d : Char) (cs : List Char)
    (hc : isOperatorChar c = true) (hd : isOperatorChar d = true) (hkind : kind ≠ .endOfInput)
    (hext : ∀ d, kind.extendsWith d = false)
    (hscan : ∀ rest, scanOperator c (d :: rest) = .ok (.mk' kind (String.ofList [c, d]), rest)) :
    ReadsOperator c (d :: cs) :=
  ⟨kind, [d], cs, rfl, hscan cs,
    .operator hc (by simpa using hd) hkind hext fun rest _ => hscan rest⟩

lemma readsOperator_gt (cs : List Char) : ReadsOperator '>' cs := by
  by_cases hge : ∃ rest, cs = '=' :: rest
  · obtain ⟨rest, rfl⟩ := hge
    exact readsOperator_two .ge '=' rest rfl rfl (by decide) (fun _ => rfl) fun _ => rfl
  · refine readsOperator_one .gt cs rfl (by decide) (fun _ => rfl)
      (fun _ h => (scanOperator_stops h).2) ?_
    rw [scanOperator]
    exact fun rest h => hge ⟨rest, h⟩

lemma readsOperator_lt (cs : List Char) : ReadsOperator '<' cs := by
  by_cases hne : ∃ rest, cs = '>' :: rest
  · obtain ⟨rest, rfl⟩ := hne
    exact readsOperator_two .ne '>' rest rfl rfl (by decide) (fun _ => rfl) fun _ => rfl
  by_cases hle : ∃ rest, cs = '=' :: rest
  · obtain ⟨rest, rfl⟩ := hle
    exact readsOperator_two .le '=' rest rfl rfl (by decide) (fun _ => rfl) fun _ => rfl
  · refine readsOperator_one .lt cs rfl (by decide) (fun _ => rfl)
      (fun _ h => (scanOperator_stops h).1) ?_
    rw [scanOperator]
    · exact fun rest h => hne ⟨rest, h⟩
    · exact fun rest h => hle ⟨rest, h⟩

lemma readsOperator (hc : isOperatorChar c = true) (cs : List Char) : ReadsOperator c cs := by
  have hmem : c ∈ [',', '.', '*', '(', ')', '+', '-', ';', '=', '>', '<'] := by
    simpa [isOperatorChar] using hc
  simp only [List.mem_cons, List.not_mem_nil, or_false] at hmem
  rcases hmem with rfl | rfl | rfl | rfl | rfl | rfl | rfl | rfl | rfl | rfl | rfl
  · exact readsOperator_one .comma cs hc (by decide) (fun _ => rfl) (fun _ _ => rfl) rfl
  · exact readsOperator_one .dot cs hc (by decide) (fun _ => rfl) (fun _ _ => rfl) rfl
  · exact readsOperator_one .star cs hc (by decide) (fun _ => rfl) (fun _ _ => rfl) rfl
  · exact readsOperator_one .lparen cs hc (by decide) (fun _ => rfl) (fun _ _ => rfl) rfl
  · exact readsOperator_one .rparen cs hc (by decide) (fun _ => rfl) (fun _ _ => rfl) rfl
  · exact readsOperator_one .plus cs hc (by decide) (fun _ => rfl) (fun _ _ => rfl) rfl
  · exact readsOperator_one .minus cs hc (by decide) (fun _ => rfl) (fun _ _ => rfl) rfl
  · exact readsOperator_one .semicolon cs hc (by decide) (fun _ => rfl) (fun _ _ => rfl) rfl
  · exact readsOperator_one .eq cs hc (by decide) (fun _ => rfl) (fun _ _ => rfl) rfl
  · exact readsOperator_gt cs
  · exact readsOperator_lt cs

/-- The `default` of the `switch`. -/
lemma scanOperator_unexpected (hc : isOperatorChar c = false) (cs : List Char) :
    ∃ msg, scanOperator c cs = .error (.runtimeError msg) := by
  unfold scanOperator
  split
  case h_15 => exact ⟨_, rfl⟩
  all_goals cases hc

end Operators

lemma isIdentChar_eq (c : Char) : isIdentChar c = (isIdentStart c || c.isDigit) := by
  rw [isIdentChar, isIdentStart, Char.isAlphanum, Bool.or_right_comm]

lemma takeWhile_head? {p : Char → Bool} (cs : List Char) :
    ∀ c ∈ (cs.dropWhile p).head?, p c = false := by
  intro c hc
  rw [Option.mem_def] at hc
  have hnot := List.head?_dropWhile_not p cs
  rw [hc] at hnot
  simpa using hnot

/-- What one iteration does. -/
inductive Iterates (n : Nat) : List Char → Prop
  | space {c : Char} {cs : List Char} : isSpace c = true →
      tokenizeLoop (n + 1) (c :: cs) = tokenizeLoop n cs → Iterates n (c :: cs)
  | token {t : Token} {rest : List Char} : Scanned t rest →
      tokenizeLoop (n + 1) (t.text.toList ++ rest) = (t :: ·) <$> tokenizeLoop n rest →
      Iterates n (t.text.toList ++ rest)
  | tooLong {digits rest : List Char} : digits ≠ [] → (∀ d ∈ digits, d.isDigit = true) →
      (∀ c ∈ rest.head?, c.isDigit = false) → 2 ^ 63 ≤ digitsValue digits →
      tokenizeLoop (n + 1) (digits ++ rest) = .error (.outOfRange "stoll") →
      Iterates n (digits ++ rest)
  | unexpected {c : Char} {cs : List Char} {msg : String} : isExpected c = false →
      tokenizeLoop (n + 1) (c :: cs) = .error (.runtimeError msg) → Iterates n (c :: cs)

lemma tokenizeLoop_iterates (n : Nat) (c : Char) (cs : List Char) : Iterates n (c :: cs) := by
  by_cases hspace : isSpace c = true
  · apply Iterates.space hspace
    rw [tokenizeLoop, if_pos hspace]
  by_cases hdigit : c.isDigit = true
  · have hne : (c :: cs).takeWhile Char.isDigit ≠ [] := by simp [hdigit]
    have hall : ∀ d ∈ (c :: cs).takeWhile Char.isDigit, d.isDigit = true :=
      List.all_eq_true.mp List.all_takeWhile
    have hloop : tokenizeLoop (n + 1) (c :: cs) = (do
        let val ← stoll ((c :: cs).takeWhile Char.isDigit)
        let tokens ← tokenizeLoop n ((c :: cs).dropWhile Char.isDigit)
        return ⟨.intLit, String.ofList ((c :: cs).takeWhile Char.isDigit), val⟩ :: tokens) := by
      rw [tokenizeLoop, if_neg hspace, if_pos hdigit]
    have hsplit := List.takeWhile_append_dropWhile (p := Char.isDigit) (l := c :: cs)
    have hrest := takeWhile_head? (p := Char.isDigit) (c :: cs)
    generalize (c :: cs).takeWhile Char.isDigit = digits at *
    generalize (c :: cs).dropWhile Char.isDigit = rest at *
    rw [← hsplit] at hloop ⊢
    by_cases hval : digitsValue digits < 2 ^ 63
    · have htext : (String.ofList digits).toList ++ rest = digits ++ rest := by
        rw [String.toList_ofList]
      rw [← htext]
      apply Iterates.token (.number hne hall hval hrest)
      rw [htext, hloop, stoll, if_pos hval]
      rfl
    · apply Iterates.tooLong hne hall hrest (Nat.not_lt.mp hval)
      rw [hloop, stoll, if_neg hval]
      rfl
  by_cases hident : isIdentStart c = true
  · have hc := (isIdentStart_identChar hident).1
    have hloop : tokenizeLoop (n + 1) (c :: cs) = (do
        let tokens ← tokenizeLoop n (cs.dropWhile isIdentChar)
        return .mk' (lookupKeyword (String.ofList ((c :: cs.takeWhile isIdentChar).map Char.toUpper)))
          (String.ofList (c :: cs.takeWhile isIdentChar)) :: tokens) := by
      rw [tokenizeLoop, if_neg hspace, if_neg hdigit, if_pos hident, List.takeWhile_cons_of_pos hc,
        List.dropWhile_cons_of_pos hc]
    have hsplit := List.takeWhile_append_dropWhile (p := isIdentChar) (l := cs)
    have hrest := takeWhile_head? (p := isIdentChar) cs
    have hall : ∀ d ∈ cs.takeWhile isIdentChar, isIdentChar d = true :=
      List.all_eq_true.mp List.all_takeWhile
    generalize cs.takeWhile isIdentChar = word at *
    generalize cs.dropWhile isIdentChar = rest at *
    have htext : (String.ofList (c :: word)).toList ++ rest = c :: cs := by
      rw [String.toList_ofList, List.cons_append, hsplit]
    rw [← htext]
    apply Iterates.token (.word hident hall hrest)
    rw [Token.mk', htext, hloop]
    rfl
  by_cases hop : isOperatorChar c = true
  · obtain ⟨kind, ds, rest, rfl, hscan, hread⟩ := readsOperator hop cs
    have htext : (String.ofList (c :: ds)).toList ++ rest = c :: (ds ++ rest) := by
      rw [String.toList_ofList, List.cons_append]
    rw [← htext]
    apply Iterates.token hread
    rw [Token.mk', htext, tokenizeLoop, if_neg hspace, if_neg hdigit, if_neg hident, hscan]
    rfl
  · obtain ⟨msg, hscan⟩ := scanOperator_unexpected (by simpa using hop) cs
    have hexpected : isExpected c = false := by
      simp only [isExpected, isIdentChar_eq, Bool.or_eq_false_iff]
      simp only [Bool.not_eq_true] at hspace hdigit hident hop
      exact ⟨⟨hspace, hident, hdigit⟩, hop⟩
    have hloop : tokenizeLoop (n + 1) (c :: cs) = .error (.runtimeError msg) := by
      rw [tokenizeLoop, if_neg hspace, if_neg hdigit, if_neg hident, hscan]
      rfl
    exact Iterates.unexpected hexpected hloop

lemma Scanned.text_ne_nil {t : Token} {rest : List Char} (h : Scanned t rest) :
    t.text.toList ≠ [] := by
  cases h with
  | number hne =>
    rw [String.toList_ofList]
    exact hne
  | word => simp [Token.mk']
  | operator => simp [Token.mk']

/-! ### Which errors escape -/

section Numbers

variable {seg rest : List Char}

lemma numbersOf_inWord (hseg : ∀ c ∈ seg, isIdentChar c = true) :
    numbersOf true (seg ++ rest) = numbersOf true rest := by
  induction seg with
  | nil => rfl
  | cons c seg ih =>
    rw [List.cons_append, numbersOf, if_neg (by simp), hseg c List.mem_cons_self]
    exact ih fun d hd => hseg d (List.mem_cons_of_mem c hd)

/-- Where no digit follows it does not matter what was before. -/
lemma numbersOf_eq (hrest : ∀ c ∈ rest.head?, c.isDigit = false) :
    numbersOf true rest = numbersOf false rest := by
  cases rest with
  | nil => rfl
  | cons c rest =>
    have hc := hrest c rfl
    rw [numbersOf, numbersOf, if_neg (by simp [hc]), if_neg (by simp [hc])]

lemma numbersOf_digits (hne : seg ≠ []) (hseg : ∀ c ∈ seg, c.isDigit = true)
    (hrest : ∀ c ∈ rest.head?, c.isDigit = false) :
    numbersOf false (seg ++ rest) = seg :: numbersOf false rest := by
  cases seg with
  | nil => exact absurd rfl hne
  | cons c seg =>
    have hc := hseg c List.mem_cons_self
    have hword : ∀ d ∈ seg, isIdentChar d = true := fun d hd => by
      rw [isIdentChar_eq, hseg d (List.mem_cons_of_mem c hd), Bool.or_true]
    have hrun : (c :: seg ++ rest).takeWhile Char.isDigit = c :: seg := by
      rw [List.takeWhile_append_of_pos hseg]
      cases rest with
      | nil => simp
      | cons d rest => simp [hrest d rfl]
    rw [List.cons_append] at hrun ⊢
    rw [numbersOf, if_pos ⟨hc, rfl⟩, hrun, numbersOf_inWord hword, numbersOf_eq hrest]

lemma numbersOf_word {c : Char} (hc : isIdentStart c = true) (hseg : ∀ d ∈ seg, isIdentChar d = true)
    (hrest : ∀ c ∈ rest.head?, c.isDigit = false) :
    numbersOf false (c :: seg ++ rest) = numbersOf false rest := by
  obtain ⟨hident, hdigit⟩ := isIdentStart_identChar hc
  rw [List.cons_append, numbersOf, if_neg (by simp [hdigit]), hident, numbersOf_inWord hseg,
    numbersOf_eq hrest]

lemma numbersOf_other (hseg : ∀ c ∈ seg, isIdentChar c = false) :
    numbersOf false (seg ++ rest) = numbersOf false rest := by
  induction seg with
  | nil => rfl
  | cons c seg ih =>
    have hc := hseg c List.mem_cons_self
    have hdigit : c.isDigit = false := by
      rw [isIdentChar_eq, Bool.or_eq_false_iff] at hc
      exact hc.2
    rw [List.cons_append, numbersOf, if_neg (by simp [hdigit]), hc]
    exact ih fun d hd => hseg d (List.mem_cons_of_mem c hd)

lemma numbersRead_append (hseg : ∀ c ∈ seg, isExpected c = true) :
    numbersRead (seg ++ rest) = numbersOf false (seg ++ rest.takeWhile isExpected) := by
  rw [numbersRead, List.takeWhile_append_of_pos hseg]

lemma head?_takeWhile {p q : Char → Bool} (h : ∀ c ∈ rest.head?, p c = false) :
    ∀ c ∈ (rest.takeWhile q).head?, p c = false := by
  cases rest with
  | nil => simp
  | cons d rest =>
    intro c hc
    by_cases hq : q d = true
    · rw [List.takeWhile_cons_of_pos hq] at hc
      exact h c hc
    · rw [List.takeWhile_cons_of_neg hq] at hc
      cases hc

end Numbers

lemma isExpected_of_identChar {c : Char} (h : isIdentChar c = true) : isExpected c = true := by
  simp [isExpected, h]

lemma numbersRead_digits {digits rest : List Char} (hne : digits ≠ [])
    (hdigits : ∀ d ∈ digits, d.isDigit = true) (hrest : ∀ c ∈ rest.head?, c.isDigit = false) :
    numbersRead (digits ++ rest) = digits :: numbersRead rest := by
  have hexpected : ∀ d ∈ digits, isExpected d = true := fun d hd =>
    isExpected_of_identChar (by rw [isIdentChar_eq, hdigits d hd, Bool.or_true])
  rw [numbersRead_append hexpected, numbersOf_digits hne hdigits (head?_takeWhile hrest)]
  rfl

/-- A token is the next number or none. -/
lemma numbersRead_scanned {t : Token} {rest : List Char} (h : Scanned t rest) :
    (∀ num ∈ numbersRead (t.text.toList ++ rest), digitsValue num < 2 ^ 63) ↔
      ∀ num ∈ numbersRead rest, digitsValue num < 2 ^ 63 := by
  cases h with
  | number hne hdigits hval hrest =>
    rw [String.toList_ofList, numbersRead_digits hne hdigits hrest, List.forall_mem_cons]
    exact and_iff_right hval
  | @word c cs _ hc hcs hrest =>
    have hdigit : ∀ d ∈ rest.head?, d.isDigit = false := fun d hd => by
      have hd' := hrest d hd
      rw [isIdentChar_eq, Bool.or_eq_false_iff] at hd'
      exact hd'.2
    have hword : ∀ d ∈ c :: cs, isIdentChar d = true :=
      List.forall_mem_cons.mpr ⟨(isIdentStart_identChar hc).1, hcs⟩
    rw [Token.mk', String.toList_ofList,
      numbersRead_append fun d hd => isExpected_of_identChar (hword d hd),
      numbersOf_word hc hcs (head?_takeWhile hdigit)]
    rfl
  | @operator c cs _ _ hc hcs =>
    have hall : ∀ d ∈ c :: cs, isOperatorChar d = true := List.forall_mem_cons.mpr ⟨hc, hcs⟩
    rw [Token.mk', String.toList_ofList,
      numbersRead_append fun d hd => by simp [isExpected, hall d hd],
      numbersOf_other fun d hd => (isOperatorChar_spec (hall d hd)).2.2.2]
    rfl

lemma documented_map {α β : Type} (f : α → β) {r : Except CppError α} :
    Documented (f <$> r) ↔ Documented r := by
  cases r with
  | ok x => exact ⟨fun _ => .inl ⟨x, rfl⟩, fun _ => .inl ⟨f x, rfl⟩⟩
  | error e =>
    constructor
    · rintro (⟨y, hy⟩ | ⟨msg, hmsg⟩)
      · cases hy
      · cases hmsg
        exact .inr ⟨msg, rfl⟩
    · rintro (⟨y, hy⟩ | ⟨msg, hmsg⟩)
      · cases hy
      · cases hmsg
        exact .inr ⟨msg, rfl⟩

/-- The scan fails in another way than by an unexpected character exactly if it comes to a number
that is out of range. -/
lemma tokenizeLoop_documented (n : Nat) (cs : List Char) (hn : cs.length ≤ n) :
    Documented (tokenizeLoop n cs) ↔ ∀ num ∈ numbersRead cs, digitsValue num < 2 ^ 63 := by
  induction n generalizing cs with
  | zero =>
    obtain rfl := List.length_eq_zero_iff.mp (Nat.le_zero.mp hn)
    exact iff_of_true (.inl ⟨_, rfl⟩) (by simp [numbersRead, numbersOf])
  | succ n ih =>
    cases cs with
    | nil => exact iff_of_true (.inl ⟨_, rfl⟩) (by simp [numbersRead, numbersOf])
    | cons c cs =>
      have hiter := tokenizeLoop_iterates n c cs
      generalize c :: cs = text at hiter hn
      cases hiter with
      | @space c cs hspace hloop =>
        have hskip : numbersRead (c :: cs) = numbersRead cs := by
          have hexp : ∀ d ∈ [c], isExpected d = true := by simp [isExpected, hspace]
          have hother : ∀ d ∈ [c], isIdentChar d = false := by
            simpa using isSpace_not_identChar hspace
          exact (numbersRead_append hexp).trans (numbersOf_other hother)
        rw [hloop, hskip]
        exact ih cs (Nat.le_of_succ_le_succ hn)
      | @token t rest hread hloop =>
        have hlen := List.length_pos_iff.mpr hread.text_ne_nil
        rw [List.length_append] at hn
        rw [hloop, documented_map, numbersRead_scanned hread]
        exact ih rest (by omega)
      | @tooLong digits rest hne hdigits hrest hval hloop =>
        rw [hloop, numbersRead_digits hne hdigits hrest, List.forall_mem_cons]
        refine iff_of_false ?_ fun h => absurd h.1 (Nat.not_lt.mpr hval)
        rintro (⟨x, hx⟩ | ⟨msg, hmsg⟩)
        · cases hx
        · cases hmsg
      | @unexpected c cs msg hc hloop =>
        have hstop : numbersRead (c :: cs) = [] := by
          rw [numbersRead, List.takeWhile_cons_of_neg (by simp [hc])]
          rfl
        rw [hloop, hstop]
        exact iff_of_true (.inr ⟨msg, rfl⟩) (by simp)

/-- `parseSQL` keeps to its documented errors exactly if no number that the tokenizer comes to
exceeds the range of `int64_t`. -/
theorem parseSQL_documented_iff (sql : String) : Documented (parseSQL sql) ↔
    ∀ num ∈ numbersRead sql.toList, digitsValue num < 2 ^ 63 := by
  rw [← tokenizeLoop_documented sql.toList.length sql.toList (Nat.le_refl _)]
  change Documented (tokenize sql >>= Parser.run) ↔ Documented (tokenize sql)
  cases htok : tokenize sql with
  | ok tokens =>
    obtain ⟨body, e, rfl, he, hbody⟩ := tokenizeLoop_shape _ _ htok
    refine iff_of_true ?_ (.inl ⟨_, rfl⟩)
    rcases run_meets he fun t ht => (hbody t ht).1 with ⟨stmt, hrun, -⟩ | ⟨msg, hrun⟩
    · exact .inl ⟨stmt, hrun⟩
    · exact .inr ⟨msg, hrun⟩
  | error e =>
    constructor
    · rintro (⟨stmt, hstmt⟩ | ⟨msg, hmsg⟩)
      · cases hstmt
      · cases hmsg
        exact .inr ⟨msg, rfl⟩
    · rintro (⟨tokens, htokens⟩ | ⟨msg, hmsg⟩)
      · cases htokens
      · cases hmsg
        exact .inr ⟨msg, rfl⟩

theorem parseSQL_outOfRange : ¬ ∀ sql, Documented (parseSQL sql) := by
  intro hall
  have hthrow : parseSQL "SELECT 9223372036854775808 FROM t" = .error (.outOfRange "stoll") := by
    decide +kernel
  rcases hthrow ▸ hall "SELECT 9223372036854775808 FROM t" with ⟨stmt, hstmt⟩ | ⟨msg, hmsg⟩
  · cases hstmt
  · cases hmsg

/-! ### Lossless, longest match, stable -/

lemma Scanned.noSpace {t : Token} {rest : List Char} (h : Scanned t rest) :
    ∀ c ∈ t.text.toList, isSpace c = false := by
  cases h with
  | number _ hdigits =>
    intro c hc
    rw [String.toList_ofList] at hc
    have hdigit := hdigits c hc
    by_contra hspace
    rw [isSpace_not_digit (by simpa using hspace)] at hdigit
    cases hdigit
  | @word c cs _ hc hcs =>
    intro d hd
    rw [Token.mk', String.toList_ofList] at hd
    have hword : ∀ d ∈ c :: cs, isIdentChar d = true :=
      List.forall_mem_cons.mpr ⟨(isIdentStart_identChar hc).1, hcs⟩
    by_contra hspace
    have hident := hword d hd
    rw [isSpace_not_identChar (by simpa using hspace)] at hident
    cases hident
  | @operator c cs _ _ hc hcs =>
    intro d hd
    rw [Token.mk', String.toList_ofList] at hd
    have hall : ∀ d ∈ c :: cs, isOperatorChar d = true := List.forall_mem_cons.mpr ⟨hc, hcs⟩
    exact (isOperatorChar_spec (hall d hd)).1

lemma Scanned.text_cons {t : Token} {rest : List Char} (h : Scanned t rest) :
    ∃ c cs, t.text.toList = c :: cs ∧ isSpace c = false := by
  cases htext : t.text.toList with
  | nil => exact absurd htext h.text_ne_nil
  | cons c cs => exact ⟨c, cs, rfl, h.noSpace c (by rw [htext]; exact List.mem_cons_self)⟩

lemma lookupKeyword_extendsWith (upper : String) (c : Char) :
    (lookupKeyword upper).extendsWith c = isIdentChar c ∧ lookupKeyword upper ≠ .endOfInput := by
  unfold lookupKeyword
  split_ifs <;> exact ⟨rfl, by decide⟩

lemma Scanned.longest {t : Token} {rest : List Char} (h : Scanned t rest) :
    ∀ c ∈ rest.head?, t.kind.extendsWith c = false := by
  cases h with
  | number _ _ _ hrest => exact hrest
  | word _ _ hrest =>
    intro c hc
    exact (lookupKeyword_extendsWith _ c).1.trans (hrest c hc)
  | operator _ _ _ hext => exact fun c _ => hext c

/-- A token is read again where white space or nothing follows it. -/
lemma Scanned.tokenizes {t : Token} {rest : List Char} (h : Scanned t rest) {rest' : List Char}
    {tokens : List Token} (hstops : Stops rest') (htokens : Tokenizes rest' tokens) :
    Tokenizes (t.text.toList ++ rest') (t :: tokens) := by
  cases h with
  | number hne hdigits hval =>
    rw [String.toList_ofList]
    exact tokenizes_number hstops htokens hne hdigits hval
  | word hc hcs =>
    rw [Token.mk', String.toList_ofList]
    exact tokenizes_word hstops htokens hc hcs
  | operator hc _ _ _ hscan =>
    obtain ⟨hspace, hdigit, hident, -⟩ := isOperatorChar_spec hc
    rw [Token.mk', String.toList_ofList]
    exact tokenizes_operator htokens hspace hdigit hident (hscan rest' hstops)

lemma Scanned.kind_ne_end {t : Token} {rest : List Char} (h : Scanned t rest) :
    t.kind ≠ .endOfInput := by
  cases h with
  | number => exact TokenKind.noConfusion
  | word => exact (lookupKeyword_extendsWith _ ' ').2
  | operator _ _ hkind => exact hkind

/-- A text and its tokens, END_OF_INPUT left out. -/
inductive Lexed : List Char → List Token → Prop
  | nil : Lexed [] []
  | space {c : Char} {cs : List Char} {ts : List Token} : isSpace c = true → Lexed cs ts →
      Lexed (c :: cs) ts
  | token {t : Token} {rest : List Char} {ts : List Token} : Scanned t rest → Lexed rest ts →
      Lexed (t.text.toList ++ rest) (t :: ts)

lemma lexed_of_tokenizeLoop (n : Nat) (cs : List Char) {tokens : List Token}
    (h : tokenizeLoop n cs = .ok tokens) :
    ∃ body, tokens = body ++ [.mk' .endOfInput ""] ∧ Lexed cs body := by
  induction n generalizing cs tokens with
  | zero =>
    cases cs with
    | nil => exact ⟨[], (Except.ok.inj h).symm, .nil⟩
    | cons c cs => cases h
  | succ n ih =>
    cases cs with
    | nil => exact ⟨[], (Except.ok.inj h).symm, .nil⟩
    | cons c cs =>
      have hiter := tokenizeLoop_iterates n c cs
      generalize c :: cs = text at hiter h
      cases hiter with
      | space hspace hloop =>
        obtain ⟨body, rfl, hbody⟩ := ih _ (hloop.symm.trans h)
        exact ⟨body, rfl, .space hspace hbody⟩
      | @token t rest hread hloop =>
        rw [hloop] at h
        cases hrest : tokenizeLoop n rest with
        | error e =>
          rw [hrest] at h
          cases h
        | ok ts =>
          rw [hrest] at h
          cases h
          obtain ⟨body, rfl, hbody⟩ := ih rest hrest
          exact ⟨t :: body, rfl, .token hread hbody⟩
      | tooLong _ _ _ _ hloop =>
        rw [hloop] at h
        cases h
      | unexpected _ hloop =>
        rw [hloop] at h
        cases h

lemma withoutSpace_eq_self {cs : List Char} (h : ∀ c ∈ cs, isSpace c = false) :
    withoutSpace cs = cs := List.filter_eq_self.mpr fun c hc => by rw [h c hc]; rfl

lemma Lexed.lossless {cs : List Char} {ts : List Token} (h : Lexed cs ts) :
    ts.flatMap (fun t => t.text.toList) = withoutSpace cs := by
  induction h with
  | nil => rfl
  | space hspace _ ih =>
    rw [withoutSpace, List.filter_cons_of_neg (by simp [hspace])]
    exact ih
  | token hread _ ih =>
    rw [List.flatMap_cons, ih, withoutSpace, withoutSpace, List.filter_append]
    congr 1
    exact (withoutSpace_eq_self hread.noSpace).symm

lemma Lexed.mem_scanned {cs : List Char} {ts : List Token} (h : Lexed cs ts) {t : Token}
    (ht : t ∈ ts) : ∃ rest, Scanned t rest := by
  induction h with
  | nil => cases ht
  | space _ _ ih => exact ih ht
  | @token u rest ts hread _ ih =>
    rcases List.mem_cons.mp ht with rfl | ht
    · exact ⟨rest, hread⟩
    · exact ih ht

/-- The character behind a token does not extend it. The token stands where the texts of the tokens
before it, and white space, have been read. -/
lemma Lexed.longest {cs : List Char} {ts : List Token} (h : Lexed cs ts) {before after : List Token}
    {t : Token} {pre rest : List Char} (hts : ts = before ++ t :: after)
    (hcs : cs = pre ++ (t.text.toList ++ rest))
    (hpre : withoutSpace pre = before.flatMap fun t => t.text.toList) :
    ∀ c ∈ rest.head?, t.kind.extendsWith c = false := by
  induction h generalizing before pre with
  | nil => simp at hts
  | @space c cs ts hspace hscan ih =>
    cases pre with
    | nil =>
      obtain ⟨rest', hread⟩ := hscan.mem_scanned (show t ∈ ts by simp [hts])
      obtain ⟨d, text, htext, hd⟩ := hread.text_cons
      rw [htext] at hcs
      injection hcs with hcd
      rw [← hcd, hspace] at hd
      cases hd
    | cons p pre =>
      injection hcs with hcp hcs
      subst hcp
      rw [withoutSpace, List.filter_cons_of_neg (by simp [hspace])] at hpre
      exact ih hts hcs hpre
  | @token t₀ rest₀ ts hread hscan ih =>
    cases before with
    | nil =>
      cases hts
      have hnil : pre = [] := by
        cases pre with
        | nil => rfl
        | cons p pre =>
          obtain ⟨d, text, htext, hd⟩ := hread.text_cons
          rw [htext] at hcs
          injection hcs with hpd
          rw [withoutSpace, ← hpd, List.filter_cons_of_pos (by simp [hd])] at hpre
          cases hpre
      subst hnil
      rw [List.append_cancel_left hcs] at hread
      exact hread.longest
    | cons b before =>
      injection hts with hb hts
      subst hb
      rw [List.flatMap_cons] at hpre
      rcases List.append_eq_append_iff.mp hcs with ⟨gap, hpre', hrest⟩ | ⟨gap, htext, hrest⟩
      · subst hpre'
        rw [withoutSpace, List.filter_append] at hpre
        have hself := withoutSpace_eq_self hread.noSpace
        rw [withoutSpace] at hself
        rw [hself] at hpre
        exact ih hts hrest (List.append_cancel_left hpre)
      · have hself : withoutSpace pre = pre := withoutSpace_eq_self fun c hc =>
          hread.noSpace c (by rw [htext]; exact List.mem_append_left gap hc)
        rw [hself] at hpre
        have hlen := congrArg List.length hpre
        have hlen' := congrArg List.length htext
        rw [List.length_append] at hlen hlen'
        have hgap : gap = [] := List.length_eq_zero_iff.mp (by omega)
        have hbefore : before.flatMap (fun t => t.text.toList) = [] :=
          List.length_eq_zero_iff.mp (by omega)
        rw [hgap, List.nil_append] at hrest
        have hnone : withoutSpace [] = before.flatMap fun t => t.text.toList := hbefore.symm
        exact ih hts hrest.symm hnone

lemma Lexed.tokenizes_joined {cs : List Char} {ts : List Token} (h : Lexed cs ts) :
    Tokenizes ([' '].intercalate (ts.map fun t => t.text.toList)) (ts ++ [.mk' .endOfInput ""]) := by
  induction h with
  | nil => exact tokenizes_nil
  | space _ _ ih => exact ih
  | @token t rest ts hread _ ih =>
    cases ts with
    | nil =>
      have hstops : Stops [] := by rintro _ ⟨⟩
      have htok := hread.tokenizes hstops tokenizes_nil
      rw [List.append_nil] at htok
      rw [List.map_singleton, List.intercalate_singleton]
      exact htok
    | cons u ts =>
      have hgap : Blank [' '] := rfl
      have hblank := tokenizes_blank hgap ih
      have htok := hread.tokenizes (by rintro _ ⟨⟩; rfl) hblank
      rw [List.map_cons, List.map_cons, List.intercalate_cons_cons, List.append_assoc]
      exact htok

/-- Nothing but white space is lost, every word and number is as long as it can be, and the texts
joined with single spaces are the same tokens again. -/
theorem tokenize_lossless (sql : String) (tokens : List Token) (h : tokenize sql = .ok tokens) :
    ∃ body, tokens = body ++ [.mk' .endOfInput ""] ∧ (∀ t ∈ body, t.kind ≠ .endOfInput) ∧
      body.flatMap (fun t => t.text.toList) = withoutSpace sql.toList ∧
      (∀ before t after pre rest, body = before ++ t :: after →
        sql.toList = pre ++ (t.text.toList ++ rest) →
        withoutSpace pre = before.flatMap (fun t => t.text.toList) →
        ∀ c ∈ rest.head?, t.kind.extendsWith c = false) ∧
      tokenize (String.ofList ([' '].intercalate (body.map fun t => t.text.toList))) =
        .ok tokens := by
  obtain ⟨body, rfl, hscan⟩ := lexed_of_tokenizeLoop _ _ h
  refine ⟨body, rfl, ?_, hscan.lossless, ?_, ?_⟩
  · intro t ht
    obtain ⟨rest, hread⟩ := hscan.mem_scanned ht
    exact hread.kind_ne_end
  · intro before t after pre rest hbody hsql hpre
    exact hscan.longest hbody hsql hpre
  · rw [tokenize, String.toList_ofList]
    exact hscan.tokenizes_joined _ (Nat.le_refl _)

theorem tokenize_lossless_adjacent : tokenize "a<=1b" = .ok
      [.mk' .ident "a", .mk' .le "<=", ⟨.intLit, "1", 1⟩, .mk' .ident "b", .mk' .endOfInput ""] ∧
    ∃ body : List Token, body.flatMap (fun t => t.text.toList) = withoutSpace "a<=1b".toList ∧
      body.length = 4 := by
  have htok : tokenize "a<=1b" = .ok [.mk' .ident "a", .mk' .le "<=", ⟨.intLit, "1", 1⟩,
      .mk' .ident "b", .mk' .endOfInput ""] := by decide +kernel
  obtain ⟨body, htokens, -, hlossless, -⟩ := tokenize_lossless _ _ htok
  refine ⟨htok, body, hlossless, ?_⟩
  have hlen := congrArg List.length htokens
  rw [List.length_append] at hlen
  simpa using hlen.symm

end Proofs

end TidyTuples
