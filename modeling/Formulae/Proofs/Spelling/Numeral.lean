import Mathlib.Data.List.TakeWhile
import Formulae.Token.Rule

/-!
Numbers as they are spelled.
-/

namespace Formulae

/-- A text that a name, a number or a color in front of it does not run on into. -/
structure Apart (rest : List Char) : Prop where
  name : ∀ c cs, rest = c :: cs → Rule.isNameChar c = false
  point : Rule.fractionOf rest = []

theorem fractionOf_cons {c : Char} (point : c ≠ '.') (cs : List Char) :
    Rule.fractionOf (c :: cs) = [] := by
  unfold Rule.fractionOf
  split
  · next same => cases same; exact absurd rfl point
  · rfl

theorem apart_nil : Apart [] := ⟨by simp, rfl⟩

theorem apart_cons {c : Char} (name : Rule.isNameChar c = false) (point : c ≠ '.')
    (cs : List Char) : Apart (c :: cs) where
  name := by
    rintro _ _ ⟨⟩
    exact name
  point := fractionOf_cons point cs

theorem apart_access {c : Char} (digit : c.isDigit = false) (cs : List Char) :
    Apart ('.' :: c :: cs) where
  name := by
    rintro _ _ ⟨⟩
    decide
  point := by simp [Rule.fractionOf, digit]

theorem isNameChar_of_isDigit {c : Char} (digit : c.isDigit = true) : Rule.isNameChar c = true := by
  simp [Rule.isNameChar, Char.isAlphanum, digit]

theorem isAlpha_iff {c : Char} : c.isAlpha = true ↔
    65 ≤ c.toNat ∧ c.toNat ≤ 90 ∨ 97 ≤ c.toNat ∧ c.toNat ≤ 122 := by
  change (decide ('A'.val ≤ c.val ∧ c.val ≤ 'Z'.val) ||
    (decide ('a'.val ≤ c.val) && decide (c.val ≤ 'z'.val))) = true ↔ _
  simp only [Bool.or_eq_true, Bool.and_eq_true, decide_eq_true_eq, UInt32.le_iff_toNat_le]
  exact Iff.rfl

theorem isNameStart_iff {c : Char} : Rule.isNameStart c = true ↔
    (65 ≤ c.toNat ∧ c.toNat ≤ 90 ∨ 97 ≤ c.toNat ∧ c.toNat ≤ 122) ∨ c = '_' := by
  rw [Rule.isNameStart, Bool.or_eq_true, isAlpha_iff, beq_iff_eq]

theorem isNameChar_iff {c : Char} : Rule.isNameChar c = true ↔
    ((65 ≤ c.toNat ∧ c.toNat ≤ 90 ∨ 97 ≤ c.toNat ∧ c.toNat ≤ 122) ∨
      48 ≤ c.toNat ∧ c.toNat ≤ 57) ∨ c = '_' := by
  rw [Rule.isNameChar, Char.isAlphanum, Bool.or_eq_true, Bool.or_eq_true, isAlpha_iff,
    Char.isDigit_iff_toNat, beq_iff_eq]
  exact Iff.rfl

theorem Text.isBlank_of_isNameChar {c : Char} (name : Rule.isNameChar c = true) :
    isBlank c = false := by
  rcases isNameChar_iff.mp name with range | rfl
  · simp [isBlank, blankRanges]
    omega
  · decide

theorem isNameChar_of_isNameStart {c : Char} (start : Rule.isNameStart c = true) :
    Rule.isNameChar c = true := by
  rw [isNameChar_iff]
  rcases isNameStart_iff.mp start with letter | underscore
  · exact .inl (.inl letter)
  · exact .inr underscore

/-- What takes only parts of names stops at such a text. -/
theorem Apart.takeWhile {rest : List Char} (apart : Apart rest) {p : Char → Bool}
    (part : ∀ c, p c = true → Rule.isNameChar c = true) : rest.takeWhile p = [] := by
  cases rest with
  | nil => rfl
  | cons c cs =>
    refine List.takeWhile_cons_of_neg fun accepted => ?_
    have inName := part c accepted
    rw [apart.name c cs rfl] at inName
    cases inName

/-- A text that the digits of a number in front of it do not run on into. -/
structure Ends (rest : List Char) : Prop where
  digit : ∀ c cs, rest = c :: cs → c.isDigit = false
  point : ∀ c cs, rest = '.' :: c :: cs → c.isDigit = false

theorem Apart.ends {rest : List Char} (apart : Apart rest) : Ends rest where
  digit c cs same := by
    rw [Bool.eq_false_iff]
    intro digit
    have inName := apart.name c cs same
    rw [isNameChar_of_isDigit digit] at inName
    cases inName
  point c cs same := by
    rw [Bool.eq_false_iff]
    intro digit
    have integral := apart.point
    rw [same, Rule.fractionOf, List.takeWhile_cons_of_pos digit] at integral
    cases integral

theorem Ends.takeWhile {rest : List Char} (ends : Ends rest) :
    rest.takeWhile Char.isDigit = [] := by
  cases rest with
  | nil => rfl
  | cons c cs => exact List.takeWhile_cons_of_neg (by simp [ends.digit c cs rfl])

theorem Ends.fractionOf {rest : List Char} (ends : Ends rest) : Rule.fractionOf rest = [] := by
  rw [Rule.fractionOf.eq_def]
  split
  · next cs =>
    cases cs with
    | nil => rfl
    | cons c cs => exact List.takeWhile_cons_of_neg (by simp [ends.point c cs rfl])
  · rfl

/-- A sign, digits and the digits behind a point. -/
structure Numeral where
  sign : List Char
  whole : List Char
  fraction : List Char
  isSign : sign = [] ∨ sign = ['+'] ∨ sign = ['-']
  isWhole : ∀ c ∈ whole, c.isDigit = true
  isFraction : ∀ c ∈ fraction, c.isDigit = true
  present : whole ≠ [] ∨ fraction ≠ []

namespace Numeral

/-- The point and the digits behind it. -/
def tail (n : Numeral) : List Char := if n.fraction = [] then [] else '.' :: n.fraction

def chars (n : Numeral) : List Char := n.sign ++ (n.whole ++ n.tail)

def value (n : Numeral) : Option Value :=
  if n.fraction = [] then Rule.integerValue n.sign n.whole
  else Rule.floatValue n.sign n.whole n.fraction

theorem body_first (n : Numeral) :
    ∃ c cs, n.whole ++ n.tail = c :: cs ∧ (c.isDigit = true ∨ c = '.') := by
  cases whole : n.whole with
  | cons c cs =>
    exact ⟨c, cs ++ n.tail, rfl, .inl (n.isWhole c (by simp [whole]))⟩
  | nil =>
    have fraction := n.present.resolve_left (by simp [whole])
    exact ⟨'.', n.fraction, by simp [tail, fraction], .inr rfl⟩

theorem splitSign_append (n : Numeral) (rest : List Char) :
    Rule.splitSign (n.sign ++ (n.whole ++ n.tail ++ rest)) =
      (n.sign, n.whole ++ n.tail ++ rest) := by
  obtain ⟨c, cs, body, opens⟩ := n.body_first
  rcases n.isSign with sign | sign | sign
  · rw [sign, body, List.nil_append, List.cons_append, Rule.splitSign.eq_def]
    split
    · next same => cases same; exact absurd opens (by decide)
    · next same => cases same; exact absurd opens (by decide)
    · rfl
  · rw [sign]
    rfl
  · rw [sign]
    rfl

theorem takeWhile_whole (n : Numeral) {rest : List Char} (ends : Ends rest) :
    (n.whole ++ n.tail ++ rest).takeWhile Char.isDigit = n.whole ∧
      (n.whole ++ n.tail ++ rest).dropWhile Char.isDigit = n.tail ++ rest := by
  have stops : (n.tail ++ rest).takeWhile Char.isDigit = [] := by
    rw [tail]
    split
    · exact ends.takeWhile
    · rfl
  have whole : (n.whole ++ n.tail ++ rest).takeWhile Char.isDigit = n.whole := by
    rw [List.append_assoc, List.takeWhile_append_of_pos n.isWhole, stops, List.append_nil]
  refine ⟨whole, ?_⟩
  have split := List.takeWhile_append_dropWhile (p := Char.isDigit)
    (l := n.whole ++ n.tail ++ rest)
  rw [whole, List.append_assoc] at split
  simpa using split

theorem fractionOf_tail (n : Numeral) {rest : List Char} (ends : Ends rest) :
    Rule.fractionOf (n.tail ++ rest) = n.fraction := by
  rw [tail]
  split
  · next none => rw [none]; exact ends.fractionOf
  · simp only [List.cons_append, Rule.fractionOf]
    rw [List.takeWhile_append_of_pos n.isFraction, ends.takeWhile, List.append_nil]

/-- A numeral reads as its number. -/
theorem number_eq (n : Numeral) {c : Char} {cs rest : List Char} (spelled : n.chars = c :: cs)
    (ends : Ends rest) :
    Rule.number false c (cs ++ rest) = some (.literal cs.length n.value) := by
  have text : c :: (cs ++ rest) = n.sign ++ (n.whole ++ n.tail ++ rest) := by
    rw [← List.cons_append, ← spelled, chars]
    simp
  have length : cs.length + 1 = n.sign.length + (n.whole.length + n.tail.length) := by
    have counted := congrArg List.length spelled
    simpa [chars, eq_comm] using counted
  rw [Rule.number, text, n.splitSign_append]
  dsimp only
  rw [(n.takeWhile_whole ends).1, (n.takeWhile_whole ends).2, n.fractionOf_tail ends,
    if_neg (by simp)]
  by_cases integral : n.fraction = []
  · have whole := n.present.resolve_right (by simp [integral])
    rw [if_neg (by simp [integral]), if_pos whole, value, if_pos integral]
    simp only [tail, integral, if_true, List.length_nil] at length
    have same : n.sign.length + n.whole.length - 1 = cs.length := by omega
    rw [same]
  · rw [if_pos integral, value, if_neg integral]
    simp only [tail, integral, if_false, List.length_cons] at length
    have same : n.sign.length + n.whole.length + n.fraction.length = cs.length := by omega
    rw [same]

theorem exists_sign (cs : List Char) : ∃ sign body, Rule.splitSign cs = (sign, body) ∧
    cs = sign ++ body ∧ (sign = [] ∨ sign = ['+'] ∨ sign = ['-']) := by
  rw [Rule.splitSign.eq_def]
  split
  · exact ⟨_, _, rfl, rfl, .inr (.inl rfl)⟩
  · exact ⟨_, _, rfl, rfl, .inr (.inr rfl)⟩
  · exact ⟨_, _, rfl, rfl, .inl rfl⟩

theorem exists_fraction (cs : List Char) : ∃ more,
    (∀ c ∈ Rule.fractionOf cs, c.isDigit = true) ∧
      (Rule.fractionOf cs = [] ∨ cs = '.' :: (Rule.fractionOf cs ++ more)) := by
  rw [Rule.fractionOf.eq_def]
  split
  · next rest =>
    refine ⟨rest.dropWhile Char.isDigit, fun _ member => List.mem_takeWhile_imp member, ?_⟩
    rw [List.takeWhile_append_dropWhile]
    exact .inr rfl
  · exact ⟨[], by simp, .inl rfl⟩

theorem exists_prefix_of_number {afterOperand : Bool} {c : Char} {cs : List Char} {lexeme : Lexeme}
    (found : Rule.number afterOperand c cs = some lexeme) :
    ∃ (n : Numeral) (behind : List Char), c :: cs = n.chars ++ behind ∧
      n.chars.length = lexeme.extra + 1 ∧ lexeme = .literal lexeme.extra n.value := by
  obtain ⟨sign, body, splits, text, isSign⟩ := exists_sign (c :: cs)
  have isWhole : ∀ c ∈ body.takeWhile Char.isDigit, c.isDigit = true :=
    fun _ member => List.mem_takeWhile_imp member
  rw [Rule.number, splits] at found
  dsimp only at found
  rw [← List.takeWhile_append_dropWhile (p := Char.isDigit) (l := body)] at text
  generalize body.takeWhile Char.isDigit = whole at text isWhole found
  generalize body.dropWhile Char.isDigit = behind at text found
  obtain ⟨more, isFraction, fractional⟩ := exists_fraction behind
  split at found
  · cases found
  split at found
  · next fraction =>
    cases found
    refine ⟨⟨sign, whole, _, isSign, isWhole, isFraction, .inr fraction⟩, more, ?_, ?_, ?_⟩
    · have rest := fractional.resolve_left fraction
      rw [text, chars, tail, if_neg fraction]
      simp [← rest]
    · simp [chars, tail, fraction, Lexeme.literal]
      omega
    · simp [value, fraction, Lexeme.literal]
  split at found
  · next filled =>
    cases found
    refine ⟨⟨sign, whole, [], isSign, isWhole, by simp, .inl filled⟩, behind, ?_, ?_, ?_⟩
    · simp [text, chars, tail]
    · have positive := List.length_pos_iff.mpr filled
      simp [chars, tail, Lexeme.literal]
      omega
    · simp [value, Lexeme.literal]
  · cases found

/-- What the rule for numbers takes is a numeral. -/
theorem exists_of_number {afterOperand : Bool} {c : Char} {cs : List Char} {lexeme : Lexeme}
    (found : Rule.number afterOperand c cs = some lexeme) :
    ∃ n : Numeral, n.chars = c :: cs.take lexeme.extra ∧
      (cs.take lexeme.extra).length = lexeme.extra ∧ lexeme = .literal lexeme.extra n.value := by
  obtain ⟨n, behind, text, length, same⟩ := exists_prefix_of_number found
  have spelled : n.chars = c :: cs.take lexeme.extra := by
    have front := congrArg (List.take (lexeme.extra + 1)) text
    rw [← length, List.take_left, length] at front
    exact front.symm
  refine ⟨n, spelled, ?_, same⟩
  rw [spelled] at length
  simpa using length

end Numeral

end Formulae
