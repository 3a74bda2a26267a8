import TidyTuples.Io.CsvLoader

/-!
# Splitting a line of quoted fields

The splitter takes the quotes of a quoted field away and gives back what is between them, doubled
quotes undone. The trimming that follows strips quotes too, so that a field loses those at its ends.
-/

namespace TidyTuples

/-- The inner quotes of a field doubled. -/
def doubleQuotes (field : Bytes) : Bytes := field.flatMap fun c => if c = '"' then ['"', '"'] else [c]

def quoteField (field : Bytes) : Bytes := '"' :: doubleQuotes field ++ ['"']

/-- The quoted fields, joined with commas. -/
def quoteLine : List Bytes → Bytes
  | [] => []
  | [field] => quoteField field
  | field :: next :: rest => quoteField field ++ ',' :: quoteLine (next :: rest)

def isBlank (c : Char) : Bool := c = ' ' || c = '\t' || c = '\r'

/-- A field without a line break, and without a blank, tab or carriage return at an end. -/
structure PlainField (field : Bytes) : Prop where
  oneLine : '\n' ∉ field
  head : ∀ c ∈ field.head?, isBlank c = false
  last : ∀ c ∈ field.getLast?, isBlank c = false

/-- A field with no quote at an end. -/
def NoOuterQuote (field : Bytes) : Prop := field.head? ≠ some '"' ∧ field.getLast? ≠ some '"'

instance (field : Bytes) : Decidable (NoOuterQuote field) := inferInstanceAs (Decidable (_ ∧ _))

namespace Proofs

/-! ### The quotes come off -/

lemma splitFields_char {c : Char} (hquote : c ≠ '"') (rest cur : Bytes) :
    splitFields (c :: rest) cur true = splitFields rest (cur ++ [c]) true := by
  rw [splitFields]
  · exact hquote
  · exact fun _ _ h => absurd h hquote
  · exact fun h => absurd h (by decide)

/-- A quote that no quote follows opens or closes. -/
lemma splitFields_quote {rest : Bytes} (hrest : rest.head? ≠ some '"') (cur : Bytes)
    (inQuote : Bool) : splitFields ('"' :: rest) cur inQuote = splitFields rest cur (!inQuote) := by
  rw [splitFields]
  intro rest' _ heq
  exact hrest (by rw [heq, List.head?_cons])

/-- An opening quote may be followed by a doubled one. -/
lemma splitFields_open (rest cur : Bytes) :
    splitFields ('"' :: rest) cur false = splitFields rest cur true := by
  rw [splitFields]
  · rfl
  · exact fun _ h => absurd h (by decide)

/-- Inside quotes the splitter reads up to the closing quote, the one that no quote follows. -/
lemma splitFields_doubleQuotes (field : Bytes) {rest : Bytes} (hrest : rest.head? ≠ some '"')
    (cur : Bytes) : splitFields (doubleQuotes field ++ '"' :: rest) cur true =
      splitFields rest (cur ++ field) false := by
  induction field generalizing cur with
  | nil =>
    rw [List.append_nil]
    exact splitFields_quote hrest cur true
  | cons c field ih =>
    by_cases hc : c = '"'
    · subst hc
      change splitFields ('"' :: '"' :: (doubleQuotes field ++ '"' :: rest)) cur true = _
      rw [splitFields, ih, List.append_assoc, List.singleton_append]
    · have hstep : doubleQuotes (c :: field) = c :: doubleQuotes field := by
        simp [doubleQuotes, hc]
      rw [hstep, List.cons_append, splitFields_char hc, ih, List.append_assoc,
        List.singleton_append]

/-- Splitting gives the fields back as the trimming leaves them. -/
lemma csvSplitLine_quoteLine {fields : List Bytes} (hne : fields ≠ []) :
    csvSplitLine (quoteLine fields) = fields.map csvTrim := by
  have hopen : ∀ rest : Bytes, rest.head? ≠ some '"' → ∀ field,
      splitFields (quoteField field ++ rest) [] false = splitFields rest field false := by
    intro rest hrest field
    have hquoted : quoteField field ++ rest = '"' :: (doubleQuotes field ++ '"' :: rest) := by
      simp [quoteField]
    rw [hquoted, splitFields_open]
    exact splitFields_doubleQuotes field hrest []
  unfold csvSplitLine
  induction fields with
  | nil => exact absurd rfl hne
  | cons field fields ih =>
    cases fields with
    | nil =>
      rw [quoteLine, ← List.append_nil (quoteField field), hopen [] (by simp), splitFields]
      rfl
    | cons next rest =>
      rw [quoteLine, hopen _ (by simp), splitFields, ih (by simp)]
      rfl

/-! ### What the trimming takes -/

lemma csvTrim_eq_self_iff {s : Bytes} : csvTrim s = s ↔
    (∀ c ∈ s.head?, isTrimmed c = false) ∧ ∀ c ∈ s.getLast?, isTrimmed c = false := by
  constructor
  · intro h
    have hpre : csvTrim s <+: s.dropWhile isTrimmed := List.rdropWhile_prefix _ _
    have hsuf : s.dropWhile isTrimmed <:+ s := List.dropWhile_suffix _
    have hdrop : s.dropWhile isTrimmed = s :=
      hsuf.eq_of_length (Nat.le_antisymm hsuf.length_le (by rw [h] at hpre; exact hpre.length_le))
    unfold csvTrim at h
    rw [hdrop] at h
    constructor
    · intro c hc
      cases s with
      | nil => cases hc
      | cons a s =>
        cases hc
        by_contra htrim
        rw [List.dropWhile_cons_of_pos (by simpa using htrim)] at hdrop
        have hlen := congrArg List.length hdrop
        have hle := (List.dropWhile_suffix isTrimmed (l := s)).length_le
        rw [List.length_cons] at hlen
        omega
    · intro c hc
      obtain ⟨hne, rfl⟩ := List.mem_getLast?_eq_getLast hc
      exact Bool.eq_false_iff.mpr (List.rdropWhile_eq_self_iff.mp h hne)
  · rintro ⟨hhead, hlast⟩
    have hdrop : s.dropWhile isTrimmed = s := by
      cases s with
      | nil => rfl
      | cons a s => exact List.dropWhile_cons_of_neg (by simp [hhead a rfl])
    unfold csvTrim
    rw [hdrop]
    apply List.rdropWhile_eq_self_iff.mpr
    intro hne
    rw [hlast _ (List.getLast?_eq_some_getLast hne)]
    exact Bool.false_ne_true

/-- Of the characters that are trimmed a plain field can only have quotes at its ends. -/
lemma csvTrim_plain_iff {field : Bytes} (h : PlainField field) :
    csvTrim field = field ↔ NoOuterQuote field := by
  have htrimmed : ∀ c ∈ field, isBlank c = false → (isTrimmed c = false ↔ c ≠ '"') := by
    intro c hc hblank
    have hbreak : c ≠ '\n' := fun heq => h.oneLine (heq ▸ hc)
    simp only [isBlank, Bool.or_eq_false_iff, decide_eq_false_iff_not] at hblank
    simp [isTrimmed, hblank, hbreak]
  rw [csvTrim_eq_self_iff]
  constructor
  · rintro ⟨hhead, hlast⟩
    constructor
    · intro hq
      exact (htrimmed _ (List.mem_of_head? hq) (h.head _ hq)).mp (hhead _ hq) rfl
    · intro hq
      exact (htrimmed _ (List.mem_of_getLast? hq) (h.last _ hq)).mp (hlast _ hq) rfl
  · rintro ⟨hhead, hlast⟩
    constructor
    · intro c hc
      exact (htrimmed c (List.mem_of_head? hc) (h.head c hc)).mpr fun heq => hhead (heq ▸ hc)
    · intro c hc
      exact (htrimmed c (List.mem_of_getLast? hc) (h.last c hc)).mpr fun heq => hlast (heq ▸ hc)

/-- A line of quoted fields is split into these fields exactly if none has a quote at an end. -/
theorem csvSplitLine_quoteLine_iff (fields : List Bytes) (hne : fields ≠ [])
    (hplain : ∀ field ∈ fields, PlainField field) :
    csvSplitLine (quoteLine fields) = fields ↔ ∀ field ∈ fields, NoOuterQuote field := by
  rw [csvSplitLine_quoteLine hne]
  constructor
  · intro h field hfield
    have htrim : csvTrim field = field :=
      List.map_inj_left.mp (h.trans (List.map_id fields).symm) field hfield
    exact (csvTrim_plain_iff (hplain field hfield)).mp htrim
  · intro h
    conv_rhs => rw [← List.map_id fields]
    exact List.map_congr_left fun field hfield =>
      (csvTrim_plain_iff (hplain field hfield)).mpr (h field hfield)

theorem csvSplitLine_quoteLine_iff_pair :
    csvSplitLine (quoteLine [['a', '"', 'b'], [',']]) = [['a', '"', 'b'], [',']] ↔
      ∀ field ∈ [['a', '"', 'b'], [',']], NoOuterQuote field := by
  apply csvSplitLine_quoteLine_iff _ (by simp)
  intro field hfield
  simp only [List.mem_cons, List.not_mem_nil, or_false] at hfield
  rcases hfield with rfl | rfl
  · exact ⟨by decide, by rintro c ⟨⟩; rfl, by rintro c ⟨⟩; rfl⟩
  · exact ⟨by decide, by rintro c ⟨⟩; rfl, by rintro c ⟨⟩; rfl⟩

theorem csvSplitLine_loses_quotes : ¬ ∀ fields : List Bytes, fields ≠ [] →
    (∀ field ∈ fields, PlainField field) → csvSplitLine (quoteLine fields) = fields := by
  intro hall
  have hplain : ∀ field ∈ [['"', 'a', '"']], PlainField field := by
    intro field hfield
    rw [List.mem_singleton.mp hfield]
    exact ⟨by decide, by rintro c ⟨⟩; rfl, by rintro c ⟨⟩; rfl⟩
  exact absurd (hall [['"', 'a', '"']] (by simp) hplain) (by decide)

end Proofs

end TidyTuples
