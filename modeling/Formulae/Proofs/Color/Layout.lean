import Formulae.Proofs.Token.Tiling

/-!
Colors laid out in their digits.

A color is written as three numbers of one size, one digit or two, and a fourth of either size if
it is not opaque. A number of two characters may also be a plus sign and a digit. Whatever is not
laid out in this way is opaque black.
-/

namespace Formulae

namespace Text

variable {cs inside behind : List Char} {offset : Nat}

/-- These characters start at a byte of the text. -/
def StandsAt (cs : List Char) (offset : Nat) (inside : List Char) : Prop :=
  ∃ before behind, cs = before ++ inside ++ behind ∧ width before = offset

theorem slice?_iff_standsAt {size : Nat} :
    slice? cs ⟨offset, offset + size⟩ = some inside ↔
      StandsAt cs offset inside ∧ width inside = size := by
  rw [slice?_eq_some_iff]
  constructor
  · rintro ⟨before, behind, whole, start, stop⟩
    exact ⟨⟨before, behind, whole, start⟩, Nat.add_left_cancel stop⟩
  · rintro ⟨⟨before, behind, whole, start⟩, rfl⟩
    exact ⟨before, behind, whole, start, rfl⟩

/-- What stands behind something that stands at a byte. -/
theorem StandsAt.append (first : StandsAt cs offset inside)
    (second : StandsAt cs (offset + width inside) behind) :
    StandsAt cs offset (inside ++ behind) := by
  obtain ⟨before, rest, whole, start⟩ := first
  obtain ⟨before', rest', whole', start'⟩ := second
  have split : splitAtByte? (offset + width inside) cs = some (before ++ inside, rest) :=
    splitAtByte?_eq_some_iff.mpr ⟨whole, by rw [width_append, start]⟩
  have split' : splitAtByte? (offset + width inside) cs = some (before', behind ++ rest') :=
    splitAtByte?_eq_some_iff.mpr ⟨by rw [whole', List.append_assoc], start'⟩
  cases split.symm.trans split'
  exact ⟨before, rest', by rw [whole']; simp, start⟩

theorem StandsAt.eq_of_width (stands : StandsAt cs 0 inside) (whole : width inside = width cs) :
    cs = inside := by
  obtain ⟨before, behind, rfl, start⟩ := stands
  have nothing (ds : List Char) (empty : width ds = 0) : ds = [] := by
    by_contra filled
    have positive := width_pos filled
    omega
  rw [width_append, width_append, start] at whole
  rw [nothing before start, nothing behind (by omega)]
  simp

end Text

namespace Color

open Text

variable {c d : Char} {n : Nat}

/-- A hexadecimal digit of either case, and its value. -/
def HexDigit (c : Char) (n : Nat) : Prop :=
  "0123456789abcdef".toList[n]? = some c ∨ "0123456789ABCDEF".toList[n]? = some c

instance (c : Char) (n : Nat) : Decidable (HexDigit c n) :=
  inferInstanceAs (Decidable (_ ∨ _))

theorem hexDigit?_eq_some_iff : hexDigit? c = some n ↔ HexDigit c n := by
  constructor
  · intro found
    have digit : Rule.isHexDigit c = true := by rw [Rule.isHexDigit, found, Option.isSome_some]
    have small : c.toNat < 103 := Nat.lt_succ_of_le (Rule.le_of_isHexDigit digit)
    have table : ∀ k < 103, ∀ m ∈ hexDigit? (Char.ofNat k), HexDigit (Char.ofNat k) m := by
      decide
    rw [← Char.ofNat_toNat c] at found ⊢
    exact table _ small n found
  · have lower : ∀ (m : Nat) (within : m < "0123456789abcdef".toList.length),
        hexDigit? "0123456789abcdef".toList[m] = some m := by decide
    have upper : ∀ (m : Nat) (within : m < "0123456789ABCDEF".toList.length),
        hexDigit? "0123456789ABCDEF".toList[m] = some m := by decide
    rintro (same | same)
    · obtain ⟨within, rfl⟩ := List.getElem?_eq_some_iff.mp same
      exact lower n within
    · obtain ⟨within, rfl⟩ := List.getElem?_eq_some_iff.mp same
      exact upper n within

theorem HexDigit.utf8Size_eq (digit : HexDigit c n) : c.utf8Size = 1 := by
  apply Rule.utf8Size_of_isHexDigit
  rw [Rule.isHexDigit, hexDigit?_eq_some_iff.mpr digit, Option.isSome_some]

theorem number?_singleton : number? [c] = some n ↔ HexDigit c n := by
  have reads : number? [c] = hexDigit? c := by
    simp [number?, ofDigits?]
  rw [reads, hexDigit?_eq_some_iff]

/-- Two digits, or a plus sign and a digit. -/
theorem number?_pair : number? [c, d] = some n ↔
    (∃ x y, HexDigit c x ∧ HexDigit d y ∧ n = 16 * x + y) ∨ c = '+' ∧ HexDigit d n := by
  by_cases plus : c = '+'
  · subst plus
    have reads : number? ['+', d] = hexDigit? d := by simp [number?, ofDigits?]
    rw [reads, hexDigit?_eq_some_iff]
    constructor
    · exact fun digit => .inr ⟨rfl, digit⟩
    · rintro (⟨x, _, high, _⟩ | ⟨_, digit⟩)
      · cases hexDigit?_eq_some_iff.mpr high
      · exact digit
  · have reads : number? [c, d] =
        (hexDigit? c).bind fun x => (hexDigit? d).map (16 * x + ·) := by
      simp [number?, plus, ofDigits?]
    simp only [reads, Option.bind_eq_some_iff, Option.map_eq_some_iff, hexDigit?_eq_some_iff]
    constructor
    · rintro ⟨x, high, y, low, rfl⟩
      exact .inl ⟨x, y, high, low, rfl⟩
    · rintro (⟨x, y, high, low, rfl⟩ | ⟨same, _⟩)
      · exact ⟨x, high, y, low, rfl⟩
      · exact absurd same plus

/-- The text of a component and its number out of 255. -/
inductive Field : List Char → Nat → Prop
  | short {c : Char} {n : Nat} (digit : HexDigit c n) : Field [c] (17 * n)
  | long {c d : Char} {x y : Nat} (high : HexDigit c x) (low : HexDigit d y) :
    Field [c, d] (16 * x + y)
  | signed {c : Char} {n : Nat} (digit : HexDigit c n) : Field ['+', c] n

variable {digits text : List Char} {offset size : Nat}

theorem nibble?_eq_some_iff :
    nibble? digits offset = some n ↔ ∃ c, StandsAt digits offset [c] ∧ HexDigit c n := by
  rw [nibble?, Option.bind_eq_some_iff]
  constructor
  · rintro ⟨inside, slice, number⟩
    obtain ⟨stands, width⟩ := slice?_iff_standsAt.mp slice
    match inside with
    | [] => cases width
    | [c] => exact ⟨c, stands, number?_singleton.mp number⟩
    | c :: d :: _ =>
      have first := c.utf8Size_pos
      have second := d.utf8Size_pos
      simp only [width_cons] at width
      omega
  · rintro ⟨c, stands, digit⟩
    refine ⟨[c], slice?_iff_standsAt.mpr ⟨stands, ?_⟩, number?_singleton.mpr digit⟩
    rw [width_cons, digit.utf8Size_eq, width_nil]

theorem byte?_eq_some_iff : byte? digits offset = some n ↔
    (∃ c d x y, StandsAt digits offset [c, d] ∧ HexDigit c x ∧ HexDigit d y ∧ n = 16 * x + y) ∨
      ∃ d, StandsAt digits offset ['+', d] ∧ HexDigit d n := by
  rw [byte?, Option.bind_eq_some_iff]
  constructor
  · rintro ⟨inside, slice, number⟩
    obtain ⟨stands, width⟩ := slice?_iff_standsAt.mp slice
    match inside with
    | [] => cases width
    | [c] =>
      have narrow := (number?_singleton.mp number).utf8Size_eq
      simp only [width_cons, width_nil] at width
      omega
    | [c, d] =>
      rcases number?_pair.mp number with ⟨x, y, high, low, same⟩ | ⟨rfl, digit⟩
      · exact .inl ⟨c, d, x, y, stands, high, low, same⟩
      · exact .inr ⟨d, stands, digit⟩
    | c :: d :: e :: _ =>
      have first := c.utf8Size_pos
      have second := d.utf8Size_pos
      have third := e.utf8Size_pos
      simp only [width_cons] at width
      omega
  · rintro (⟨c, d, x, y, stands, high, low, same⟩ | ⟨d, stands, digit⟩)
    · refine ⟨[c, d], slice?_iff_standsAt.mpr ⟨stands, ?_⟩, number?_pair.mpr ?_⟩
      · rw [width_cons, width_cons, high.utf8Size_eq, low.utf8Size_eq, width_nil]
      · exact .inl ⟨x, y, high, low, same⟩
    · refine ⟨['+', d], slice?_iff_standsAt.mpr ⟨stands, ?_⟩, number?_pair.mpr (.inr ⟨rfl, digit⟩)⟩
      rw [width_cons, width_cons, digit.utf8Size_eq, width_nil]
      rfl

/-- The number out of 255 of so many characters. -/
def field? (digits : List Char) : Nat → Nat → Option Nat
  | 1, offset => (nibble? digits offset).map (17 * ·)
  | 2, offset => byte? digits offset
  | _, _ => none

theorem Field.width_eq (field : Field text n) : width text = text.length := by
  cases field with
  | short digit => simp [digit.utf8Size_eq]
  | long high low => simp [high.utf8Size_eq, low.utf8Size_eq]
  | signed digit =>
    have sign : '+'.utf8Size = 1 := by decide
    simp [digit.utf8Size_eq, sign]

theorem field?_eq_some_iff : field? digits size offset = some n ↔
    ∃ text, StandsAt digits offset text ∧ Field text n ∧ text.length = size := by
  constructor
  · intro found
    match size with
    | 1 =>
      obtain ⟨m, reads, rfl⟩ := Option.map_eq_some_iff.mp found
      obtain ⟨c, stands, digit⟩ := nibble?_eq_some_iff.mp reads
      exact ⟨[c], stands, .short digit, rfl⟩
    | 2 =>
      rcases byte?_eq_some_iff.mp found with
        ⟨c, d, x, y, stands, high, low, rfl⟩ | ⟨d, stands, digit⟩
      · exact ⟨[c, d], stands, .long high low, rfl⟩
      · exact ⟨['+', d], stands, .signed digit, rfl⟩
  · rintro ⟨_, stands, field, rfl⟩
    cases field with
    | short digit =>
      exact Option.map_eq_some_iff.mpr ⟨_, nibble?_eq_some_iff.mpr ⟨_, stands, digit⟩, rfl⟩
    | long high low => exact byte?_eq_some_iff.mpr (.inl ⟨_, _, _, _, stands, high, low, rfl⟩)
    | signed digit => exact byte?_eq_some_iff.mpr (.inr ⟨_, stands, digit⟩)

/-- Three fields of one size. -/
structure Channels (size : Nat) (r g b : List Char) (l m n : Nat) : Prop where
  red : Field r l
  green : Field g m
  blue : Field b n
  first : r.length = size
  second : g.length = size
  third : b.length = size

/-- The texts that name a color, and the color. -/
inductive Laid : List Char → Color → Prop
  | solid {size l m n : Nat} {r g b : List Char} (channels : Channels size r g b l m n) :
    Laid (r ++ g ++ b) ⟨ofByte l, ofByte m, ofByte n, 1⟩
  | translucent {size l m n k : Nat} {r g b a : List Char} (channels : Channels size r g b l m n)
      (opacity : Field a k) : Laid (r ++ g ++ b ++ a) ⟨ofByte l, ofByte m, ofByte n, ofByte k⟩

variable {r g b : List Char} {l m : Nat} {color : Color}

/-- A field is read where it stands. -/
theorem Field.reads (field : Field text n) {before behind : List Char} (length : text.length = size)
    (whole : digits = before ++ text ++ behind) (place : width before = offset) :
    field? digits size offset = some n :=
  field?_eq_some_iff.mpr ⟨text, ⟨before, behind, whole, place⟩, field, length⟩

theorem Field.single (field : Field text n) : text.length = 1 ∨ text.length = 2 := by
  cases field with
  | short => exact .inl rfl
  | long | signed => exact .inr rfl

namespace Channels

theorem single (channels : Channels size r g b l m n) : size = 1 ∨ size = 2 := by
  rw [← channels.first]
  exact channels.red.single

theorem width_red (channels : Channels size r g b l m n) : width r = size := by
  rw [channels.red.width_eq, channels.first]

theorem width_green (channels : Channels size r g b l m n) : width (r ++ g) = 2 * size := by
  rw [width_append, channels.width_red, channels.green.width_eq, channels.second, Nat.two_mul]

theorem width_blue (channels : Channels size r g b l m n) : width (r ++ g ++ b) = 3 * size := by
  rw [width_append, channels.width_green, channels.blue.width_eq, channels.third, ← Nat.succ_mul]

/-- Fields that are read at their places stand one behind the other. -/
theorem exists_of_reads (first : field? digits size 0 = some l)
    (second : field? digits size size = some m) (third : field? digits size (2 * size) = some n) :
    ∃ r g b, Channels size r g b l m n ∧ StandsAt digits 0 (r ++ g ++ b) := by
  obtain ⟨r, start, red, length⟩ := field?_eq_some_iff.mp first
  obtain ⟨g, middle, green, length'⟩ := field?_eq_some_iff.mp second
  obtain ⟨b, last, blue, length''⟩ := field?_eq_some_iff.mp third
  have channels : Channels size r g b l m n := ⟨red, green, blue, length, length', length''⟩
  have front : StandsAt digits 0 (r ++ g) := by
    apply start.append
    rwa [channels.width_red, Nat.zero_add]
  refine ⟨r, g, b, channels, front.append ?_⟩
  rwa [channels.width_green, Nat.zero_add]

/-- They are read where they stand. -/
theorem reads (channels : Channels size r g b l m n) (behind : List Char) :
    field? (r ++ g ++ b ++ behind) size 0 = some l ∧
      field? (r ++ g ++ b ++ behind) size size = some m ∧
        field? (r ++ g ++ b ++ behind) size (2 * size) = some n := by
  have start : r ++ g ++ b ++ behind = [] ++ r ++ (g ++ b ++ behind) := by simp
  refine ⟨channels.red.reads channels.first start rfl, ?_,
    channels.blue.reads channels.third rfl channels.width_green⟩
  exact channels.green.reads channels.second (List.append_assoc _ _ _) channels.width_red

end Channels

theorem decode?_of_solid (single : size = 1 ∨ size = 2) (whole : width digits = 3 * size) :
    decode? digits = (do
      let l ← field? digits size 0
      let m ← field? digits size size
      let n ← field? digits size (2 * size)
      return ⟨ofByte l, ofByte m, ofByte n, 1⟩) := by
  rcases single with rfl | rfl <;>
    simp only [decode?, whole, field?, Nat.mul_one, Nat.reduceMul, Option.pure_def,
      Option.bind_eq_bind, Option.bind_map, Function.comp_def]

theorem decode?_of_translucent {extra : Nat} (single : size = 1 ∨ size = 2)
    (single' : extra = 1 ∨ extra = 2) (whole : width digits = 3 * size + extra) :
    decode? digits = (do
      let l ← field? digits size 0
      let m ← field? digits size size
      let n ← field? digits size (2 * size)
      let k ← field? digits extra (3 * size)
      return ⟨ofByte l, ofByte m, ofByte n, ofByte k⟩) := by
  rcases single with rfl | rfl <;> rcases single' with rfl | rfl <;>
    simp only [decode?, whole, field?, Nat.mul_one, Nat.reduceMul, Nat.reduceAdd, Option.pure_def,
      Option.bind_eq_bind, Option.bind_map, Function.comp_def]

theorem laid_of_solid (single : size = 1 ∨ size = 2) (whole : width digits = 3 * size)
    (decodes : decode? digits = some color) : Laid digits color := by
  rw [decode?_of_solid single whole] at decodes
  simp only [bind, Option.bind_eq_some_iff] at decodes
  obtain ⟨l, first, m, second, n, third, ⟨⟩⟩ := decodes
  obtain ⟨r, g, b, channels, stands⟩ := Channels.exists_of_reads first second third
  rw [stands.eq_of_width (channels.width_blue.trans whole.symm)]
  exact .solid channels

theorem laid_of_translucent {extra : Nat} (single : size = 1 ∨ size = 2)
    (single' : extra = 1 ∨ extra = 2) (whole : width digits = 3 * size + extra)
    (decodes : decode? digits = some color) : Laid digits color := by
  rw [decode?_of_translucent single single' whole] at decodes
  simp only [bind, Option.bind_eq_some_iff] at decodes
  obtain ⟨l, first, m, second, n, third, k, fourth, ⟨⟩⟩ := decodes
  obtain ⟨r, g, b, channels, stands⟩ := Channels.exists_of_reads first second third
  obtain ⟨a, last, opacity, length⟩ := field?_eq_some_iff.mp fourth
  have all : StandsAt digits 0 (r ++ g ++ b ++ a) := by
    apply stands.append
    rwa [Nat.zero_add, channels.width_blue]
  have wide : width (r ++ g ++ b ++ a) = width digits := by
    rw [width_append, channels.width_blue, opacity.width_eq, length, whole]
  rw [all.eq_of_width wide]
  exact .translucent channels opacity

/-- A color is decoded from just the texts that are laid out as it. -/
theorem decode?_eq_some_iff : decode? digits = some color ↔ Laid digits color := by
  constructor
  · intro decodes
    match whole : width digits with
    | 3 => exact laid_of_solid (.inl rfl) whole decodes
    | 4 => exact laid_of_translucent (.inl rfl) (.inl rfl) whole decodes
    | 5 => exact laid_of_translucent (.inl rfl) (.inr rfl) whole decodes
    | 6 => exact laid_of_solid (.inr rfl) whole decodes
    | 7 => exact laid_of_translucent (.inr rfl) (.inl rfl) whole decodes
    | 8 => exact laid_of_translucent (.inr rfl) (.inr rfl) whole decodes
    | 0 | 1 | 2 | _ + 9 =>
      rw [decode?, whole] at decodes
      cases decodes
  · intro laid
    cases laid with
    | solid channels =>
      obtain ⟨first, second, third⟩ := channels.reads []
      rw [List.append_nil] at first second third
      rw [decode?_of_solid channels.single channels.width_blue, first, second, third]
      rfl
    | @translucent size _ _ _ _ r g b a channels opacity =>
      obtain ⟨first, second, third⟩ := channels.reads a
      have fourth := opacity.reads rfl (List.append_nil _).symm channels.width_blue
      have whole : width (r ++ g ++ b ++ a) = 3 * size + a.length := by
        rw [width_append, channels.width_blue, opacity.width_eq]
      rw [decode?_of_translucent channels.single opacity.single whole, first, second, third, fourth]
      rfl

/-- The text without the number sign that it may start with. -/
def unmarked (text : List Char) : List Char :=
  match text with
  | '#' :: digits => digits
  | _ => text

theorem decode_eq (text : List Char) : decode text = (decode? (unmarked text)).getD black := by
  rfl

theorem Field.mem (field : Field text n) (member : c ∈ text) :
    c = '+' ∨ ∃ m, HexDigit c m := by
  cases field with
  | short digit => exact .inr ⟨_, List.mem_singleton.mp member ▸ digit⟩
  | long high low =>
    rcases List.mem_pair.mp member with rfl | rfl
    · exact .inr ⟨_, high⟩
    · exact .inr ⟨_, low⟩
  | signed digit =>
    rcases List.mem_pair.mp member with rfl | rfl
    · exact .inl rfl
    · exact .inr ⟨_, digit⟩

theorem Channels.mem (channels : Channels size r g b l m n) (member : c ∈ r ++ g ++ b) :
    c = '+' ∨ ∃ m, HexDigit c m := by
  rw [List.mem_append, List.mem_append] at member
  rcases member with (member | member) | member
  · exact channels.red.mem member
  · exact channels.green.mem member
  · exact channels.blue.mem member

/-- The characters of a color are digits and plus signs. -/
theorem Laid.mem (laid : Laid digits color) (member : c ∈ digits) :
    c = '+' ∨ ∃ m, HexDigit c m := by
  cases laid with
  | solid channels => exact channels.mem member
  | translucent channels opacity =>
    rcases List.mem_append.mp member with member | member
    · exact channels.mem member
    · exact opacity.mem member

theorem Channels.length (channels : Channels size r g b l m n) :
    (r ++ g ++ b).length = 3 * size := by
  rw [List.length_append, List.length_append, channels.first, channels.second, channels.third]
  omega

theorem Laid.length (laid : Laid digits color) : 3 ≤ digits.length ∧ digits.length ≤ 8 := by
  cases laid with
  | solid channels =>
    have single := channels.single
    rw [channels.length]
    omega
  | translucent channels opacity =>
    have single := channels.single
    have single' := opacity.single
    rw [List.length_append, channels.length]
    omega

section Hex

variable (hex : ∀ c ∈ text, ∃ n, HexDigit c n)
include hex

theorem exists_field (single : text.length = 1 ∨ text.length = 2) : ∃ n, Field text n := by
  match text with
  | [] | _ :: _ :: _ :: _ => simp at single
  | [c] =>
    obtain ⟨n, digit⟩ := hex c (by simp)
    exact ⟨_, .short digit⟩
  | [c, d] =>
    obtain ⟨x, high⟩ := hex c (by simp)
    obtain ⟨y, low⟩ := hex d (by simp)
    exact ⟨_, .long high low⟩

theorem exists_channels (single : size = 1 ∨ size = 2) (length : text.length = 3 * size) :
    ∃ r g b l m n, text = r ++ g ++ b ∧ Channels size r g b l m n := by
  have part {i : Nat} (within : i + size ≤ 3 * size) :
      ((text.drop i).take size).length = size ∧ ∃ n, Field ((text.drop i).take size) n := by
    have wide : ((text.drop i).take size).length = size := by
      rw [List.length_take, List.length_drop]
      omega
    refine ⟨wide, exists_field (fun c member => ?_) (by rwa [wide])⟩
    exact hex c (List.mem_of_mem_drop (List.mem_of_mem_take member))
  obtain ⟨first, l, red⟩ := part (i := 0) (by omega)
  obtain ⟨second, m, green⟩ := part (i := size) (by omega)
  obtain ⟨third, n, blue⟩ := part (i := 2 * size) (by omega)
  refine ⟨_, _, _, l, m, n, ?_, red, green, blue, first, second, third⟩
  have last : (text.drop (2 * size)).take size = text.drop (2 * size) :=
    List.take_of_length_le (by rw [List.length_drop]; omega)
  have middle : (text.drop size).take size ++ text.drop (2 * size) = text.drop size := by
    rw [Nat.two_mul, ← List.drop_drop, List.take_append_drop]
  rw [last, List.drop_zero, List.append_assoc, middle, List.take_append_drop]

/-- Three to eight digits name a color. -/
theorem exists_laid (least : 3 ≤ text.length) (most : text.length ≤ 8) :
    ∃ color, Laid text color := by
  obtain ⟨size, single, within, rest⟩ : ∃ size, (size = 1 ∨ size = 2) ∧ 3 * size ≤ text.length ∧
      text.length ≤ 3 * size + 2 := by
    by_cases short : text.length < 6
    · exact ⟨1, by omega⟩
    · exact ⟨2, by omega⟩
  have start : ∀ c ∈ text.take (3 * size), ∃ n, HexDigit c n :=
    fun c member => hex c (List.mem_of_mem_take member)
  have finish : ∀ c ∈ text.drop (3 * size), ∃ n, HexDigit c n :=
    fun c member => hex c (List.mem_of_mem_drop member)
  obtain ⟨r, g, b, l, m, n, front, channels⟩ := exists_channels start single (by simp [within])
  rw [← List.take_append_drop (3 * size) text, front]
  by_cases none : text.drop (3 * size) = []
  · rw [none, List.append_nil]
    exact ⟨_, .solid channels⟩
  · have filled := List.length_pos_iff.mpr none
    rw [List.length_drop] at filled
    obtain ⟨k, opacity⟩ := exists_field finish (by rw [List.length_drop]; omega)
    exact ⟨_, .translucent channels opacity⟩

end Hex

/-- A digit is read from one hexadecimal digit at its byte. A number is read from two, or from a
plus sign and one. A text that is laid out as a color is decoded to it, and every other text is
opaque black: so is one with a character that is neither a digit nor a plus sign, and one of fewer
than three characters or more than eight. All other texts of digits alone are laid out as a
color. -/
theorem decode_exact (text : List Char) :
    (∀ offset n, nibble? text offset = some n ↔ ∃ c, StandsAt text offset [c] ∧ HexDigit c n) ∧
    (∀ offset n, byte? text offset = some n ↔
      (∃ c d x y, StandsAt text offset [c, d] ∧ HexDigit c x ∧ HexDigit d y ∧ n = 16 * x + y) ∨
        ∃ d, StandsAt text offset ['+', d] ∧ HexDigit d n) ∧
    let digits := unmarked text
    (∀ color, Laid digits color → decode text = color) ∧
      ((∀ color, ¬ Laid digits color) → decode text = black) ∧
      ((∃ c ∈ digits, c ≠ '+' ∧ ∀ n, ¬ HexDigit c n) → decode text = black) ∧
      (digits.length < 3 ∨ 8 < digits.length → decode text = black) ∧
      ((∀ c ∈ digits, ∃ n, HexDigit c n) → 3 ≤ digits.length → digits.length ≤ 8 →
        ∃ color, Laid digits color) := by
  refine ⟨fun _ _ => nibble?_eq_some_iff, fun _ _ => byte?_eq_some_iff, ?_⟩
  intro digits
  have otherwise (other : ∀ color, ¬ Laid digits color) : decode text = black := by
    have missed : decode? digits = none :=
      Option.eq_none_iff_forall_ne_some.mpr fun color decodes =>
        other color (decode?_eq_some_iff.mp decodes)
    rw [decode_eq, missed, Option.getD_none]
  refine ⟨?_, otherwise, ?_, ?_, exists_laid⟩
  · intro color laid
    rw [decode_eq, decode?_eq_some_iff.mpr laid, Option.getD_some]
  · rintro ⟨c, member, plus, other⟩
    refine otherwise fun color laid => ?_
    rcases laid.mem member with same | ⟨n, digit⟩
    · exact plus same
    · exact other n digit
  · intro count
    refine otherwise fun color laid => ?_
    have length := laid.length
    omega

/-- Plus signs stand for digits and the color is not black; another letter makes it black. -/
theorem decode_exact_of_plus :
    decode "#+F+F+F".toList = ⟨ofByte 15, ofByte 15, ofByte 15, 1⟩ ∧
      (decode "#+F+F+F".toList).equal black = false ∧ decode "#é+F+F".toList = black := by
  have digit : HexDigit 'F' 15 := by decide
  have laid : Laid "+F+F+F".toList ⟨ofByte 15, ofByte 15, ofByte 15, 1⟩ :=
    .solid ⟨.signed digit, .signed digit, .signed digit, rfl, rfl, rfl⟩
  have other : ∀ n, ¬ HexDigit 'é' n := by
    intro n digit
    cases hexDigit?_eq_some_iff.mpr digit
  obtain ⟨_, _, decodes, _⟩ := decode_exact "#+F+F+F".toList
  obtain ⟨_, _, _, _, blackens, _⟩ := decode_exact "#é+F+F".toList
  have named := decodes _ laid
  refine ⟨named, ?_, blackens ⟨'é', ?_, by decide, other⟩⟩
  · rw [named]
    decide
  · decide

end Color

end Formulae
