import Formulae.Expression.Flavor

/-!
The operators of the standard dialects, level by level.

A dialect is standard if its tables hold exactly the operators of the language, each with
the powers of its level. The levels are those of the grammar, from the loosest to the
tightest.
-/

namespace Formulae

/-- The levels of the grammar. -/
inductive Level where
  | assignment
  | choice
  | disjunction
  | conjunction
  | equality
  | comparison
  | addition
  | multiplication
  | exponentiation
  | unary
  | suffixed
  | primary
  deriving DecidableEq, Repr

namespace Level

/-- The next tighter level. -/
def next : Level → Level
  | assignment => choice
  | choice => disjunction
  | disjunction => conjunction
  | conjunction => equality
  | equality => comparison
  | comparison => addition
  | addition => multiplication
  | multiplication => exponentiation
  | exponentiation => unary
  | unary => suffixed
  | suffixed => primary
  | primary => primary

def rank : Level → Nat
  | assignment => 0
  | choice => 1
  | disjunction => 2
  | conjunction => 3
  | equality => 4
  | comparison => 5
  | addition => 6
  | multiplication => 7
  | exponentiation => 8
  | unary => 9
  | suffixed => 10
  | primary => 11

/-- On the left the least power of an operator that continues a phrase of the level, on
the right the power at which its last operand is parsed. -/
def power : Level → Power
  | assignment => .assignment
  | choice => .choice
  | disjunction => .disjunction
  | conjunction => .conjunction
  | equality => .equality
  | comparison => .comparison
  | addition => .addition
  | multiplication => .multiplication
  | exponentiation => .exponentiation
  | unary => ⟨Power.step.left, Power.unaryOperand⟩
  | suffixed => ⟨Power.step.left, Power.member.left⟩
  | primary => ⟨Power.step.left, Power.member.left⟩

/-- The level of the phrases parsed at a power. -/
def ofPower (min : Nat) : Level :=
  if min < Power.assignment.left then assignment
  else if min < Power.choice.left then choice
  else if min < Power.disjunction.left then disjunction
  else if min < Power.conjunction.left then conjunction
  else if min < Power.equality.left then equality
  else if min < Power.comparison.left then comparison
  else if min < Power.addition.left then addition
  else if min < Power.multiplication.left then multiplication
  else if min < Power.exponentiation.left then exponentiation
  else unary

theorem rank_injective {l k : Level} (same : l.rank = k.rank) : l = k := by
  cases l <;> cases k <;> first | rfl | cases same

theorem rank_next {l : Level} (loose : l ≠ primary) : l.next.rank = l.rank + 1 := by
  cases l <;> first | rfl | exact absurd rfl loose

theorem power_le_next (l : Level) :
    l.power.left ≤ l.next.power.left ∧ l.power.right ≤ l.next.power.right := by
  cases l <;> decide

theorem ofPower_le_unary (min : Nat) : (ofPower min).rank ≤ unary.rank := by
  unfold ofPower
  repeat' split
  all_goals decide

/-- A phrase that an operator may continue at a power is a phrase of the power. -/
theorem ofPower_le {l : Level} {min : Nat} (taken : min < l.power.left) :
    (ofPower min).rank ≤ l.rank := by
  have bounded := ofPower_le_unary min
  unfold ofPower at bounded ⊢
  cases l
  case unary => exact bounded
  case suffixed => exact Nat.le_succ_of_le bounded
  case primary => exact Nat.le_succ_of_le (Nat.le_succ_of_le bounded)
  all_goals
    simp only [power] at taken
    repeat' split
    all_goals decide

end Level

def BinaryOp.level : BinaryOp → Level
  | or => .disjunction
  | and => .conjunction
  | equal | inequal => .equality
  | less | lessOrEqual | greater | greaterOrEqual => .comparison
  | add | subtract => .addition
  | multiply | divide | modulo => .multiplication
  | exponent => .exponentiation

/-- The operators of a chain associate to the left. -/
theorem Level.power_of_chain {op : BinaryOp} {l : Level} (atLevel : op.level = l)
    (chains : l ≠ .exponentiation) :
    l.power.left = l.power.right ∧ l.power.right < l.next.power.left ∧
      l.power.right ≤ l.next.power.right := by
  subst atLevel
  cases op <;> first | decide | exact absurd rfl chains

namespace OpeningRule

def symbol : OpeningRule → String
  | group => "("
  | template => "\x60"
  | unary op => op.symbol

theorem symbol_ne_closing (rule : OpeningRule) : rule.symbol ≠ ")" := by
  cases rule with
  | group | template => decide
  | unary op =>
    cases op with
    | negate | invert => decide
    | step op => cases op <;> decide

end OpeningRule

namespace FollowingRule

def symbol : FollowingRule → String
  | binary op => op.symbol
  | assign op => op.symbol
  | step op => op.symbol
  | access => "."
  | lookup => "["
  | call => "("
  | choice => "?"

def power : FollowingRule → Power
  | binary op => op.level.power
  | assign _ => .assignment
  | step _ => .step
  | access => .member
  | lookup => .member
  | call => .call
  | choice => .choice

def isAssign : FollowingRule → Bool
  | assign _ => true
  | _ => false

/-- The level of the operand in front. -/
def operand : FollowingRule → Level
  | binary .exponent => .unary
  | binary op => op.level
  | assign _ => .choice
  | choice => .disjunction
  | _ => .suffixed

/-- The level of what the operator makes. -/
def result : FollowingRule → Level
  | binary op => op.level
  | assign _ => .assignment
  | choice => .choice
  | _ => .suffixed

/-- An operator that is taken behind a phrase finds its operand in it. -/
theorem operand_le {rule : FollowingRule} {l : Level} (taken : rule.power.left ≤ l.power.right) :
    rule.operand.rank ≤ l.rank := by
  revert taken
  rcases rule with op | op | op | _ | _ | _ | _ <;> first | (cases op <;> cases l <;> decide) |
    (cases l <;> decide)

/-- What an operator makes is a phrase of each power that takes it. -/
theorem ofPower_le_result {rule : FollowingRule} {min : Nat} (taken : min < rule.power.left) :
    (Level.ofPower min).rank ≤ rule.result.rank := by
  cases rule with
  | binary op => exact Level.ofPower_le taken
  | assign op => exact Level.ofPower_le taken
  | choice => exact Level.ofPower_le taken
  | step | access | lookup | call => exact Nat.le_succ_of_le (Level.ofPower_le_unary min)

/-- The operands of a chain. -/
theorem operand_of_chain {op : BinaryOp} (chains : op ≠ .exponent) :
    (binary op).operand = op.level ∧ op.level ≠ .exponentiation ∧
      .ofPower (binary op).power.right = op.level.next := by
  cases op <;> first | exact absurd rfl chains | exact ⟨rfl, by decide, rfl⟩

theorem power_le_member (rule : FollowingRule) : rule.power.left ≤ Power.member.left := by
  cases rule with
  | binary op => cases op <;> decide
  | assign op => exact show Power.assignment.left ≤ _ by decide
  | step op => exact show Power.step.left ≤ _ by decide
  | access | lookup | call | choice => decide

/-- A suffix is taken at every power at which its operand is, and behind every suffix. -/
theorem power_of_suffix {rule : FollowingRule} (suffix : rule.operand = .suffixed) :
    rule.isAssign = false ∧ Power.step.left ≤ rule.power.left ∧
      rule.power.left ≤ Level.suffixed.power.right := by
  cases rule with
  | binary op => cases op <;> cases suffix
  | assign | choice => cases suffix
  | step op => exact ⟨rfl, Nat.le_refl _, show Power.step.left ≤ _ by decide⟩
  | access | lookup | call => decide

end FollowingRule

namespace Dialect

/-- The operators of the language, with assignment or without. -/
structure Standard (d : Dialect) (assigning : Bool) : Prop where
  opening : ∀ s (rule : OpeningRule), d.opening[s]? = some rule ↔ rule.symbol = s
  following : ∀ s power (rule : FollowingRule), d.following[s]? = some (power, rule) ↔
    rule.symbol = s ∧ rule.power = power ∧ (rule.isAssign = true → assigning = true)

theorem getElem?_insertMany_iff {β : Type} {table : Std.TreeMap String β}
    {entries : List (String × β)} (distinct : (entries.map Prod.fst).Nodup) {s : String} {b : β} :
    (table.insertMany entries)[s]? = some b ↔
      (s, b) ∈ entries ∨ s ∉ entries.map Prod.fst ∧ table[s]? = some b := by
  have distinct' : entries.Pairwise fun a b => ¬ compare a.1 b.1 = .eq := by
    rw [List.Nodup, List.pairwise_map] at distinct
    exact distinct.imp fun differs same => differs (Std.LawfulEqCmp.eq_of_compare same)
  have bound {s b} (member : (s, b) ∈ entries) : (table.insertMany entries)[s]? = some b :=
    Std.TreeMap.getElem?_insertMany_list_of_mem Std.ReflCmp.compare_self distinct' member
  by_cases present : s ∈ entries.map Prod.fst
  · constructor
    · intro found
      obtain ⟨⟨_, b'⟩, member, rfl⟩ := List.mem_map.mp present
      obtain rfl : b' = b := Option.some.inj ((bound member).symm.trans found)
      exact .inl member
    · rintro (member | ⟨absent, _⟩)
      · exact bound member
      · exact absurd present absent
  · rw [Std.TreeMap.getElem?_insertMany_list_of_contains_eq_false (by simpa using present)]
    constructor
    · exact fun found => .inr ⟨present, found⟩
    · rintro (member | ⟨_, found⟩)
      · exact absurd (List.mem_map_of_mem member) present
      · exact found

theorem mem_openingRules {s : String} {rule : OpeningRule} :
    (s, rule) ∈ openingRules ↔ rule.symbol = s := by
  constructor
  · simp only [openingRules, List.mem_cons, Prod.mk.injEq, List.not_mem_nil, or_false]
    rintro (⟨rfl, rfl⟩ | ⟨rfl, rfl⟩ | ⟨rfl, rfl⟩ | ⟨rfl, rfl⟩ | ⟨rfl, rfl⟩ | ⟨rfl, rfl⟩) <;> rfl
  · rintro rfl
    rcases rule with _ | _ | _ | _ | op <;> try cases op
    all_goals simp [openingRules, OpeningRule.symbol, UnaryOp.symbol, StepOp.symbol]

theorem mem_followingRules {s : String} {power : Power} {rule : FollowingRule} :
    (s, power, rule) ∈ followingRules ↔
      rule.symbol = s ∧ rule.power = power ∧ rule.isAssign = false := by
  constructor
  · intro member
    have checked : ∀ entry ∈ followingRules, entry.2.2.symbol = entry.1 ∧
        entry.2.2.power = entry.2.1 ∧ entry.2.2.isAssign = false := by decide
    exact checked _ member
  · rintro ⟨rfl, rfl, notAssign⟩
    cases rule with
    | binary op => cases op <;> decide
    | assign => cases notAssign
    | step op => cases op <;> decide
    | access | lookup | call | choice => decide

theorem mem_assignmentRules {s : String} {power : Power} {rule : FollowingRule} :
    (s, power, rule) ∈ assignmentRules ↔
      rule.symbol = s ∧ rule.power = power ∧ rule.isAssign = true := by
  constructor
  · intro member
    obtain ⟨op, _, same⟩ := List.mem_map.mp member
    cases same
    exact ⟨rfl, rfl, rfl⟩
  · rintro ⟨rfl, rfl, assigns⟩
    cases rule with
    | assign op => exact List.mem_map.mpr ⟨op, op.mem_all, rfl⟩
    | binary | step | access | lookup | call | choice => cases assigns

theorem opening_plain (names : Vocabulary) :
    (plain names).opening = (∅ : Std.TreeMap String OpeningRule).insertMany openingRules := by
  simp only [plain, withOperators, withOpening, withFollowing, withConstants, withProviders, bare]

theorem following_plain (names : Vocabulary) : (plain names).following =
    (∅ : Std.TreeMap String (Power × FollowingRule)).insertMany followingRules := by
  simp only [plain, withOperators, withOpening, withFollowing, withConstants, withProviders, bare]

theorem standard_plain (names : Vocabulary) : (plain names).Standard false where
  opening s rule := by
    rw [opening_plain, getElem?_insertMany_iff (by decide), mem_openingRules]
    simp
  following s power rule := by
    rw [following_plain, getElem?_insertMany_iff (by decide), mem_followingRules]
    simp

theorem standard_template (names : Vocabulary) : (template names).Standard false where
  opening s rule := by
    rw [← (standard_plain names).opening, opening_plain]
    simp only [template, withOperators, withOpening, withFollowing, withConstants, withProviders,
      bare]
  following s power rule := by
    rw [← (standard_plain names).following, following_plain]
    simp only [template, withOperators, withOpening, withFollowing, withConstants, withProviders,
      bare]

theorem standard_assignment (names : Vocabulary) : (assignment names).Standard true where
  opening s rule := by
    rw [← (standard_plain names).opening]
    simp only [assignment, withFollowing]
  following s power rule := by
    simp only [assignment, withFollowing]
    rw [getElem?_insertMany_iff (by decide), mem_assignmentRules, (standard_plain names).following]
    constructor
    · rintro (⟨symbol, power, _⟩ | ⟨_, symbol, power, _⟩)
      · exact ⟨symbol, power, fun _ => trivial⟩
      · exact ⟨symbol, power, fun _ => trivial⟩
    · rintro ⟨rfl, rfl, _⟩
      cases assigns : rule.isAssign with
      | true => exact .inl ⟨rfl, rfl, rfl⟩
      | false =>
        refine .inr ⟨fun present => ?_, rfl, rfl, by simp⟩
        have plainRule := mem_followingRules.mpr ⟨rfl, rfl, assigns⟩
        have disjoint : ∀ entry ∈ followingRules, entry.1 ∉ assignmentRules.map Prod.fst := by
          decide
        exact disjoint _ plainRule present

end Dialect

theorem Presets.exists_standard (names : Vocabulary) (flavor : Flavor) :
    ∃ assigning, ((Presets.ofVocabulary names).get flavor).Standard assigning := by
  cases flavor with
  | plain | readOnly => exact ⟨_, Dialect.standard_plain names⟩
  | assignment => exact ⟨_, Dialect.standard_assignment names⟩
  | template => exact ⟨_, Dialect.standard_template names⟩

end Formulae
