import Formulae.Proofs.Grammar.Depth
import Formulae.Proofs.Spelling.Opening

/-!
The text of a phrase reads as a phrase.
-/

namespace Formulae

open Formulae.Lexer Formulae.Lexer.State

variable {assigning : Bool} {d : Dialect}

/-- Its text, behind a minus sign that joins it if `signed`, reads as a phrase of its
level, and no deeper one. -/
def Derivation.Respells (d : Dialect) (signed : Bool) {l : Level} (k : Derivation assigning l) :
    Prop :=
  ∀ (position : Nat) (rest : List Char), Apart rest →
    ∃ (k' : Derivation assigning l) (position' : Nat),
      Reads (expecting position) (Tree.sign signed ++ (k.tree d).chars) rest k'.tokens
        (complete position') ∧
      Tree.Respelled signed (k.tree d) (k'.tree d) ∧ (k'.tree d).depth ≤ (k.tree d).depth

def Arguments.Respells (d : Dialect) (args : Arguments assigning) : Prop :=
  ∀ (position : Nat) (rest : List Char), Apart rest →
    ∃ (args' : Arguments assigning) (position' : Nat),
      Reads (expecting position) (Tree.argumentChars (args.trees d)) rest args'.tokens
        (complete position') ∧
      Tree.AllRespelled (args.trees d) (args'.trees d) ∧
      greatest ((args'.trees d).map Tree.depth) ≤ greatest ((args.trees d).map Tree.depth)

/-- The body of a template, up to the backtick that ends it. -/
def Fragments.Respells (d : Dialect) (fragments : Fragments assigning) : Prop :=
  ∀ (position : Nat) (rest : List Char),
    ∃ (fragments' : Fragments assigning) (position' : Nat),
      Reads (inside position) (Tree.partChars (fragments.parts d)) ('\x60' :: rest)
        fragments'.tokens (inside position') ∧
      Part.AllRespelled (fragments.parts d) (fragments'.parts d) ∧
      greatest ((Part.embeds (fragments'.parts d)).map Tree.depth) ≤
        greatest ((Part.embeds (fragments.parts d)).map Tree.depth)

theorem depth_over_le {s s' : Span} {ts us : List Tree}
    (shallower : greatest (us.map Tree.depth) ≤ greatest (ts.map Tree.depth)) :
    (Mark.over s' us).depth ≤ (Mark.over s ts).depth :=
  Nat.add_le_add_left shallower 1

theorem apart_space (cs : List Char) : Apart (' ' :: cs) := apart_cons (by decide) (by decide) cs

/-- Two phrases with an operator between them. -/
theorem respells_between {l m : Level} {symbol : String} (spaced : Spaced symbol)
    {left : Derivation assigning l} {right : Derivation assigning m}
    (first : left.Respells d false) (second : right.Respells d false)
    (opens : (right.tree d).Opens) (position : Nat) {rest : List Char} (apart : Apart rest) :
    ∃ (left' : Derivation assigning l) (o : Token) (right' : Derivation assigning m)
      (position' : Nat), o.isOperator symbol = true ∧
      Reads (expecting position) (Tree.between (left.tree d).chars symbol (right.tree d).chars)
        rest (left'.tokens ++ o :: right'.tokens) (complete position') ∧
      (Tree.Respelled false (left.tree d) (left'.tree d) ∧
        (left'.tree d).depth ≤ (left.tree d).depth) ∧
      Tree.Respelled false (right.tree d) (right'.tree d) ∧
        (right'.tree d).depth ≤ (right.tree d).depth := by
  obtain ⟨c, cs, spelled, solid, _⟩ := opens
  obtain ⟨left', position₁, readsLeft, likeLeft⟩ :=
    first position (' ' :: (symbol.toList ++ [' ']) ++ (right.tree d).chars ++ rest)
      (apart_space _)
  obtain ⟨o, position₂, isOp, readsSymbol⟩ :=
    spaced.marks position₁ (by rw [spelled]; rfl : (right.tree d).chars ++ rest = c :: _) solid
  obtain ⟨right', position₃, readsRight, likeRight⟩ := second position₂ rest apart
  refine ⟨left', o, right', position₃, isOp, ?_, likeLeft, likeRight⟩
  rw [Tree.between_eq]
  exact readsLeft.append (readsSymbol.append readsRight)

namespace Derivation

theorem respells_chain {l : Level} {op : BinaryOp} {atLevel : op.level = l}
    {chains : l ≠ .exponentiation} {left : Derivation assigning l} {o : Token}
    {isOp : o.isOperator op.symbol = true} {right : Derivation assigning l.next}
    (first : left.Respells d false) (second : right.Respells d false)
    (opens : (right.tree d).Opens) :
    (Derivation.chain op atLevel chains left o isOp right).Respells d false := by
  intro position rest apart
  obtain ⟨left', o', right', position', isOp', reads, ⟨likeLeft, lessLeft⟩, likeRight, lessRight⟩ :=
    respells_between (spaced_binary op) first second opens position apart
  refine ⟨.chain op atLevel chains left' o' isOp' right', position', reads,
    .binary likeLeft likeRight, depth_over_le ?_⟩
  simp only [List.map_cons, List.map_nil, greatest_cons, greatest_nil]
  omega

theorem respells_exponent {base : Derivation assigning .unary} {o : Token}
    {isOp : o.isOperator "^" = true} {power : Derivation assigning .exponentiation}
    (first : base.Respells d false) (second : power.Respells d false)
    (opens : (power.tree d).Opens) :
    (Derivation.exponent base o isOp power).Respells d false := by
  intro position rest apart
  obtain ⟨base', o', power', position', isOp', reads, ⟨likeBase, lessBase⟩, likePower, lessPower⟩ :=
    respells_between (spaced_binary .exponent) first second opens position apart
  refine ⟨.exponent base' o' isOp' power', position', reads, .binary likeBase likePower,
    depth_over_le ?_⟩
  simp only [List.map_cons, List.map_nil, greatest_cons, greatest_nil]
  omega

theorem respells_assign {op : AssignOp} {allowed : assigning = true}
    {target : Derivation assigning .choice} {o : Token} {isOp : o.isOperator op.symbol = true}
    {value : Derivation assigning .assignment} (first : target.Respells d false)
    (second : value.Respells d false) (opens : (value.tree d).Opens) :
    (Derivation.assign op allowed target o isOp value).Respells d false := by
  intro position rest apart
  obtain ⟨target', o', value', position', isOp', reads, ⟨likeTarget, lessTarget⟩, likeValue,
    lessValue⟩ := respells_between (spaced_assign op) first second opens position apart
  refine ⟨.assign op allowed target' o' isOp' value', position', reads,
    .assign likeTarget likeValue, depth_over_le ?_⟩
  simp only [List.map_cons, List.map_nil, greatest_cons, greatest_nil]
  omega

theorem respells_choice {condition : Derivation assigning .disjunction} {o : Token}
    {isOp : o.isOperator "?" = true} {yes : Derivation assigning .choice} {colon : Token}
    {isColon : colon.isOperator ":" = true} {no : Derivation assigning .choice}
    (first : condition.Respells d false) (second : yes.Respells d false)
    (third : no.Respells d false) (opensYes : (yes.tree d).Opens) (opensNo : (no.tree d).Opens) :
    (Derivation.choice condition o isOp yes colon isColon no).Respells d false := by
  intro position rest apart
  obtain ⟨c, cs, spelled, solid, _⟩ := opensNo
  obtain ⟨condition', o', yes', position₁, isOp', reads, ⟨likeCondition, lessCondition⟩, likeYes,
    lessYes⟩ := respells_between spaced_question first second opensYes position
      (apart_space (":".toList ++ [' '] ++ (no.tree d).chars ++ rest))
  obtain ⟨colon', position₂, isColon', readsColon⟩ :=
    spaced_colon.marks position₁ (by rw [spelled]; rfl : (no.tree d).chars ++ rest = c :: _) solid
  obtain ⟨no', position₃, readsNo, likeNo, lessNo⟩ := third position₂ rest apart
  refine ⟨.choice condition' o' isOp' yes' colon' isColon' no', position₃, ?_,
    .choice likeCondition likeYes likeNo, depth_over_le ?_⟩
  · have whole := reads.append (readsColon.append readsNo)
    rw [← Tree.between_eq] at whole
    rw [tokens, tree, Tree.chars, Tree.sign_false, List.nil_append]
    simpa using whole
  · simp only [List.map_cons, List.map_nil, greatest_cons, greatest_nil]
    omega

theorem respells_lift {l : Level} {signed : Bool} {loose : l ≠ .primary}
    {inner : Derivation assigning l.next} (first : inner.Respells d signed) :
    (Derivation.lift loose inner).Respells d signed := by
  intro position rest apart
  obtain ⟨inner', position', reads, like⟩ := first position rest apart
  exact ⟨.lift loose inner', position', reads, like⟩

theorem respells_step {signed : Bool} {op : StepOp} {operand : Derivation assigning .suffixed}
    {o : Token} {isOp : o.isOperator op.symbol = true} (first : operand.Respells d signed) :
    (Derivation.step op operand o isOp).Respells d signed := by
  intro position rest apart
  have stops : Apart (op.symbol.toList ++ rest) := by
    cases op <;> exact apart_cons (by decide) (by decide) _
  obtain ⟨operand', position₁, reads, like, less⟩ := first position _ stops
  obtain ⟨o', position₂, isOp', readsSymbol⟩ := marks_step position₁ rest op true
  refine ⟨.step op operand' o' isOp', position₂, ?_, .step like, depth_over_le ?_⟩
  · rw [tree, Tree.chars, ← List.append_assoc]
    exact reads.append readsSymbol
  · simpa using less

theorem respells_access {signed : Bool} {container : Derivation assigning .suffixed} {o : Token}
    {isOp : o.isOperator "." = true} {field : Token} {isName : field.kind = .identifier}
    (first : container.Respells d signed) (scanned : field.Scanned .expression) :
    (Derivation.access container o isOp field isName).Respells d signed := by
  intro position rest apart
  obtain ⟨c, cs, spelled, start⟩ := scanned.isNameStart isName
  have digit := Rule.isDigit_of_isNameStart start
  have stops : Apart ('.' :: field.text.toList ++ rest) := by
    rw [spelled]
    exact apart_access digit _
  obtain ⟨container', position₁, reads, like, less⟩ := first position _ stops
  obtain ⟨o', position₂, isOp', readsPoint⟩ := marks_access position₁ (cs ++ rest) digit
  obtain ⟨field', position₃, same, readsField⟩ := scanned.reads (.inr isName) position₂ apart
  refine ⟨.access container' o' isOp' field' (same.kind.trans isName), position₃, ?_, ?_,
    depth_over_le ?_⟩
  · rw [tree, Tree.chars, Tree.selectorChars, ← List.append_assoc]
    have point : Reads (complete position₁) ['.'] (field.text.toList ++ rest) [o']
        (expecting position₂) := by
      rw [spelled]
      exact readsPoint
    exact reads.append (point.append readsField)
  · rw [tree, tree, same.text]
    exact .member like .named
  · simpa using less

theorem respells_lookup {signed : Bool} {container : Derivation assigning .suffixed} {o : Token}
    {isOpen : o.isOperator "[" = true} {key : Derivation assigning .assignment} {c : Token}
    {isClose : c.isOperator "]" = true} (first : container.Respells d signed)
    (second : key.Respells d false) :
    (Derivation.lookup container o isOpen key c isClose).Respells d signed := by
  intro position rest apart
  obtain ⟨container', position₁, reads, like, less⟩ :=
    first position ('[' :: ((key.tree d).chars ++ [']']) ++ rest)
      (apart_cons (by decide) (by decide) _)
  obtain ⟨o', position₂, isOpen', readsOpen⟩ :=
    marks_lookup position₁ ((key.tree d).chars ++ [']'] ++ rest)
  obtain ⟨key', position₃, readsKey, likeKey, lessKey⟩ :=
    second position₂ (']' :: rest) (apart_cons (by decide) (by decide) _)
  obtain ⟨c', position₄, isClose', readsClose⟩ := marks_unlock position₃ rest
  refine ⟨.lookup container' o' isOpen' key' c' isClose', position₄, ?_,
    .member like (.keyed likeKey), depth_over_le ?_⟩
  · rw [tree, Tree.chars, Tree.selectorChars, ← List.append_assoc]
    exact reads.append (readsOpen.append (readsKey.append readsClose))
  · simp only [List.map_cons, List.map_nil, greatest_cons, greatest_nil]
    omega

theorem respells_invoke {signed : Bool} {callee : Derivation assigning .suffixed} {o : Token}
    {isOpen : o.isOperator "(" = true} {c : Token} {isClose : c.isOperator ")" = true}
    (first : callee.Respells d signed) :
    (Derivation.invoke callee o isOpen c isClose).Respells d signed := by
  intro position rest apart
  obtain ⟨callee', position₁, reads, like, less⟩ :=
    first position ('(' :: ')' :: rest) (apart_cons (by decide) (by decide) _)
  obtain ⟨o', position₂, isOpen', readsOpen⟩ := marks_group position₁ (')' :: rest) true
  obtain ⟨c', position₃, isClose', readsClose⟩ := marks_close position₂ rest false
  refine ⟨.invoke callee' o' isOpen' c' isClose', position₃, ?_, .call like .nil,
    depth_over_le ?_⟩
  · have text : Tree.sign signed ++ (tree d (.invoke callee o isOpen c isClose)).chars =
        Tree.sign signed ++ (callee.tree d).chars ++ ['(', ')'] := by
      simp [tree, Tree.chars, Tree.argumentChars]
    rw [text]
    exact reads.append (readsOpen.append readsClose)
  · simpa using less

theorem respells_call {signed : Bool} {callee : Derivation assigning .suffixed} {o : Token}
    {isOpen : o.isOperator "(" = true} {args : Arguments assigning} {c : Token}
    {isClose : c.isOperator ")" = true} (first : callee.Respells d signed)
    (second : args.Respells d) :
    (Derivation.call callee o isOpen args c isClose).Respells d signed := by
  intro position rest apart
  obtain ⟨callee', position₁, reads, like, less⟩ :=
    first position ('(' :: (Tree.argumentChars (args.trees d) ++ [')']) ++ rest)
      (apart_cons (by decide) (by decide) _)
  obtain ⟨o', position₂, isOpen', readsOpen⟩ :=
    marks_group position₁ (Tree.argumentChars (args.trees d) ++ [')'] ++ rest) true
  obtain ⟨args', position₃, readsArgs, likeArgs, lessArgs⟩ :=
    second position₂ (')' :: rest) (apart_cons (by decide) (by decide) _)
  obtain ⟨c', position₄, isClose', readsClose⟩ := marks_close position₃ rest true
  refine ⟨.call callee' o' isOpen' args' c' isClose', position₄, ?_, .call like likeArgs,
    depth_over_le ?_⟩
  · have text : Tree.sign signed ++ (tree d (.call callee o isOpen args c isClose)).chars =
        Tree.sign signed ++ (callee.tree d).chars ++
          ('(' :: (Tree.argumentChars (args.trees d) ++ [')'])) := by
      simp [tree, Tree.chars]
    rw [text]
    exact reads.append (readsOpen.append (readsArgs.append readsClose))
  · simp only [List.map_cons, greatest_cons]
    omega

theorem respells_literal {t : Token} {isLiteral : t.kind = .literal}
    (scanned : t.Scanned .expression) :
    (Derivation.literal t isLiteral : Derivation assigning .primary).Respells d false := by
  intro position rest apart
  obtain ⟨u, position', same, reads⟩ := scanned.reads (.inl isLiteral) position apart
  refine ⟨.literal u (same.kind.trans isLiteral), position', reads, ?_, Nat.le_refl _⟩
  rw [tree, tree, same.text, same.value]
  exact .literal

theorem respells_negated {t : Token} {isLiteral : t.kind = .literal}
    (scanned : t.Scanned .expression)
    (opens : (tree d (.literal t isLiteral : Derivation assigning .primary)).numeralHead = true) :
    (Derivation.literal t isLiteral : Derivation assigning .primary).Respells d true := by
  intro position rest apart
  obtain ⟨u, v, v', position', value, isLiteral', text, value', opposite, reads⟩ :=
    scanned.reads_negated isLiteral (Tree.exists_first_of_numeralHead opens) position apart
  refine ⟨.literal u isLiteral', position', reads, ?_, Nat.le_refl _⟩
  rw [tree] at opens
  rw [tree, tree, text, value, value']
  rw [value] at opens
  exact .negated opens opposite

theorem respelled_resolve (s : String) (span span' : Span) :
    Tree.Respelled false (Parser.resolve d s span) (Parser.resolve d s span') := by
  unfold Parser.resolve
  dsimp only
  split
  · exact .constant
  · split
    · exact .provided
    · exact .name

theorem numeralHead_resolve (s : String) (span : Span) :
    (Parser.resolve d s span).numeralHead = false := by
  unfold Parser.resolve
  dsimp only
  split
  · rfl
  · split <;> rfl

theorem respells_name {t : Token} {isName : t.kind = .identifier}
    (scanned : t.Scanned .expression) :
    (Derivation.name t isName : Derivation assigning .primary).Respells d false := by
  intro position rest apart
  obtain ⟨u, position', same, reads⟩ := scanned.reads (.inr isName) position apart
  refine ⟨.name u (same.kind.trans isName), position', ?_, ?_, ?_⟩
  · rw [tree, Parser.chars_resolve]
    exact reads
  · rw [tree, tree, same.text]
    exact respelled_resolve ..
  · rw [tree, tree, Parser.depth_resolve, Parser.depth_resolve]

theorem respells_group {o : Token} {isOpen : o.isOperator "(" = true}
    {inner : Derivation assigning .assignment} {c : Token} {isClose : c.isOperator ")" = true}
    (first : inner.Respells d false) :
    (Derivation.group o isOpen inner c isClose).Respells d false := by
  intro position rest apart
  obtain ⟨o', position₁, isOpen', readsOpen⟩ :=
    marks_group position ((inner.tree d).chars ++ [')'] ++ rest) false
  obtain ⟨inner', position₂, reads, like, less⟩ :=
    first position₁ (')' :: rest) (apart_cons (by decide) (by decide) _)
  obtain ⟨c', position₃, isClose', readsClose⟩ := marks_close position₂ rest true
  refine ⟨.group o' isOpen' inner' c' isClose', position₃, ?_, .group like, depth_over_le ?_⟩
  · rw [tree, Tree.chars]
    exact readsOpen.append (reads.append readsClose)
  · simpa using less

theorem respells_template {o : Token} {isOpen : o.isOperator "\x60" = true}
    {fragments : Fragments assigning} {c : Token} {isClose : c.isOperator "\x60" = true}
    (first : fragments.Respells d) :
    (Derivation.template o isOpen fragments c isClose).Respells d false := by
  intro position rest apart
  obtain ⟨o', position₁, isOpen', readsOpen⟩ :=
    marks_template position (Tree.partChars (fragments.parts d) ++ ['\x60'] ++ rest)
  obtain ⟨fragments', position₂, reads, like, less⟩ := first position₁ rest
  obtain ⟨c', position₃, isClose', readsClose⟩ := marks_end position₂ rest
  refine ⟨.template o' isOpen' fragments' c' isClose', position₃, ?_, .template like,
    depth_over_le less⟩
  rw [tree, Tree.chars]
  exact readsOpen.append (reads.append readsClose)

theorem marks_unary (op : UnaryOp) (position : Nat) {c : Char} (rest : List Char)
    (equals : c ≠ '=') (number : op = .negate → c.isDigit = false ∧ c ≠ '.' ∧ c ≠ '-') :
    Marks (expecting position) op.symbol (c :: rest) expecting := by
  match op with
  | .negate =>
    obtain ⟨digit, point, minus⟩ := number rfl
    exact marks_negate position rest digit point minus equals
  | .invert => exact marks_invert position rest equals
  | .step op => exact marks_step position (c :: rest) op false

/-- An operator before an operand that it does not join, with the space between them. -/
theorem reads_prepended (op : UnaryOp) {t : Tree} (opens : t.Opens)
    (tight : Level.unary.rank ≤ t.level.rank) (apart : op = .negate → t.numeralHead = false)
    (position : Nat) (rest : List Char) :
    ∃ front o position', o.isOperator op.symbol = true ∧
      Tree.prepend op.symbol.toList t.chars = front ++ t.chars ∧
      Reads (expecting position) front (t.chars ++ rest) [o] (expecting position') := by
  obtain ⟨c, cs, spelled, solid, equals, number⟩ := opens
  by_cases signed : c = '+' ∨ c = '-'
  · obtain ⟨o, position₁, isOp, reads⟩ :=
      marks_unary op position (t.chars ++ rest) (c := ' ') (by decide) fun _ => by decide
    have space := reads_space false position₁
      (by rw [spelled]; rfl : t.chars ++ rest = c :: (cs ++ rest)) solid
    refine ⟨op.symbol.toList ++ [' '], o, position₁ + 1, isOp, ?_, reads.append space⟩
    rw [spelled]
    rcases signed with rfl | rfl
    · simp [Tree.prepend]
    · simp [Tree.prepend]
  · have other : op = .negate → c.isDigit = false ∧ c ≠ '.' ∧ c ≠ '-' := by
      intro negates
      have unsigned := apart negates
      refine ⟨?_, ?_, fun minus => signed (.inr minus)⟩
      · by_contra digit
        rw [number tight (.inl (by simpa using digit))] at unsigned
        cases unsigned
      · rintro rfl
        rw [number tight (.inr rfl)] at unsigned
        cases unsigned
    obtain ⟨o, position₁, isOp, reads⟩ := marks_unary op position (cs ++ rest) equals other
    refine ⟨op.symbol.toList, o, position₁, isOp, ?_, ?_⟩
    · rw [spelled, Tree.prepend]
      · rintro _ ⟨⟩
        exact signed (.inl rfl)
      · rintro _ ⟨⟩
        exact signed (.inr rfl)
    · rw [spelled]
      exact reads

theorem respells_unary {op : UnaryOp} {o : Token} {isOp : o.isOperator op.symbol = true}
    {operand : Derivation assigning .unary} (first : operand.Respells d false)
    (opens : (operand.tree d).Opens)
    (separate : op = .negate → (operand.tree d).numeralHead = false) :
    (Derivation.unary op o isOp operand).Respells d false := by
  intro position rest apart
  obtain ⟨front, o', position₁, isOp', text, readsSymbol⟩ :=
    reads_prepended op opens (operand.unary_le_level (Nat.le_refl _)) separate position rest
  obtain ⟨operand', position₂, reads, like, less⟩ := first position₁ rest apart
  refine ⟨.unary op o' isOp' operand', position₂, ?_, .unary separate like, depth_over_le ?_⟩
  · rw [tree, Tree.chars, text]
    exact readsSymbol.append reads
  · simpa using less

/-- A minus sign joins the number at the front of its operand. -/
theorem respells_joined {o : Token} {isOp : o.isOperator UnaryOp.negate.symbol = true}
    {operand : Derivation assigning .unary} (first : operand.Respells d true)
    (opens : (operand.tree d).numeralHead = true) :
    (Derivation.unary .negate o isOp operand).Respells d false := by
  intro position rest apart
  obtain ⟨operand', position', reads, like, less⟩ := first position rest apart
  refine ⟨operand', position', ?_, .joined like, ?_⟩
  · rw [tree, Tree.chars, Tree.prepend_of_numeralHead opens]
    exact reads
  · have deeper : (tree d (.unary .negate o isOp operand)).depth =
        1 + max (operand.tree d).depth 0 := rfl
    omega

end Derivation

namespace Arguments

theorem opens (args : Arguments assigning) (scanned : args.Scanned) :
    ∃ c cs, Tree.argumentChars (args.trees d) = c :: cs ∧ Text.isBlank c = false := by
  match args with
  | .one arg =>
    obtain ⟨c, cs, spelled, solid, _⟩ := arg.opens (d := d) scanned
    exact ⟨c, cs, by rw [trees, Tree.argumentChars, spelled], solid⟩
  | .more arg _ _ others =>
    obtain ⟨c, cs, spelled, solid, _⟩ := arg.opens (d := d) scanned.1
    refine ⟨c, cs ++ ',' :: ' ' :: Tree.argumentChars (others.trees d), ?_, solid⟩
    rw [trees, Tree.argumentChars, spelled]
    · rfl
    · exact others.trees_ne_nil

theorem respells_one {arg : Derivation assigning .assignment} (first : arg.Respells d false) :
    (Arguments.one arg).Respells d := by
  intro position rest apart
  obtain ⟨arg', position', reads, like, less⟩ := first position rest apart
  refine ⟨.one arg', position', reads, .cons like .nil, ?_⟩
  simpa [trees] using less

theorem respells_more {arg : Derivation assigning .assignment} {comma : Token}
    {isComma : comma.isOperator "," = true} {others : Arguments assigning}
    (first : arg.Respells d false) (second : others.Respells d)
    (opens : ∃ c cs, Tree.argumentChars (others.trees d) = c :: cs ∧ Text.isBlank c = false) :
    (Arguments.more arg comma isComma others).Respells d := by
  intro position rest apart
  obtain ⟨c, cs, spelled, solid⟩ := opens
  obtain ⟨arg', position₁, reads, like, less⟩ :=
    first position (',' :: ' ' :: Tree.argumentChars (others.trees d) ++ rest)
      (apart_cons (by decide) (by decide) _)
  obtain ⟨comma', position₂, isComma', readsComma⟩ :=
    marks_comma position₁ (' ' :: (Tree.argumentChars (others.trees d) ++ rest))
  have space := reads_space false position₂
    (by rw [spelled]; rfl : Tree.argumentChars (others.trees d) ++ rest = c :: (cs ++ rest)) solid
  obtain ⟨others', position₃, readsOthers, likeOthers, lessOthers⟩ := second _ rest apart
  refine ⟨.more arg' comma' isComma' others', position₃, ?_, .cons like likeOthers, ?_⟩
  · rw [trees, Tree.argumentChars]
    · exact reads.append (readsComma.append (space.append readsOthers))
    · exact others.trees_ne_nil
  · simp only [trees, List.map_cons, greatest_cons]
    omega

end Arguments

namespace Fragments

theorem respells_nil : (Fragments.nil : Fragments assigning).Respells d := by
  intro position rest
  exact ⟨.nil, position, Reads.nil _ _, .nil, Nat.le_refl _⟩

/-- Behind a text comes a marker. -/
theorem stops (fragments : Fragments assigning) (other : fragments.opensWithText = false)
    (rest : List Char) :
    Text.Free.Stops (Tree.partChars (fragments.parts d) ++ '\x60' :: rest) := by
  match fragments with
  | .nil => exact Text.Free.stops_backtick rest
  | .embed .. => exact Text.Free.stops_brace _

theorem respells_text {t : Token} {isText : t.kind = .literal} {others : Fragments assigning}
    (scanned : t.Scanned .template) (second : others.Respells d)
    (behind : others.opensWithText = false) :
    (Fragments.text t isText others).Respells d := by
  intro position rest
  obtain ⟨s, filled, value⟩ := scanned.exists_text isText
  obtain ⟨u, position₁, isText', value', reads⟩ :=
    reads_text position filled (others.stops (d := d) behind rest)
  obtain ⟨others', position₂, readsOthers, likeOthers, lessOthers⟩ := second position₁ rest
  have content : t.content = String.ofList s := by rw [Token.content, value]
  have content' : u.content = String.ofList s := by rw [Token.content, value']
  refine ⟨.text u isText' others', position₂, ?_, ?_, lessOthers⟩
  · rw [parts, Tree.partChars, content, String.toList_ofList]
    exact reads.append readsOthers
  · rw [parts, parts, content, content']
    exact .text likeOthers

theorem respells_embed {o : Token} {isOpen : o.isOperator "\x7b" = true}
    {inner : Derivation assigning .assignment} {c : Token} {isClose : c.isOperator "\x7d" = true}
    {others : Fragments assigning} (first : inner.Respells d false)
    (second : others.Respells d) :
    (Fragments.embed o isOpen inner c isClose others).Respells d := by
  intro position rest
  obtain ⟨o', position₁, isOpen', readsOpen⟩ := marks_embed position
    ((inner.tree d).chars ++ '\x7d' :: Tree.partChars (others.parts d) ++ '\x60' :: rest)
  obtain ⟨inner', position₂, reads, like, less⟩ :=
    first position₁ ('\x7d' :: Tree.partChars (others.parts d) ++ '\x60' :: rest)
      (apart_cons (by decide) (by decide) _)
  obtain ⟨c', position₃, isClose', readsClose⟩ :=
    marks_return position₂ (Tree.partChars (others.parts d) ++ '\x60' :: rest)
  obtain ⟨others', position₄, readsOthers, likeOthers, lessOthers⟩ := second position₃ rest
  refine ⟨.embed o' isOpen' inner' c' isClose' others', position₄, ?_, .embed like likeOthers, ?_⟩
  · exact readsOpen.append (reads.append (readsClose.append readsOthers))
  · simp only [parts, Part.embeds, List.filterMap_cons, List.map_cons, greatest_cons] at *
    omega

end Fragments

mutual

/-- The text of a phrase whose operands have been scanned reads as a phrase, and behind a
minus sign as well if the phrase has a number at its front. -/
theorem Derivation.respells {l : Level} (k : Derivation assigning l) (signed : Bool)
    (scanned : k.Scanned) (opens : signed = true → (k.tree d).numeralHead = true) :
    k.Respells d signed := by
  match k, signed with
  | .lift _ inner, signed => exact Derivation.respells_lift (inner.respells signed scanned opens)
  | .step _ operand _ _, signed =>
    exact Derivation.respells_step (operand.respells signed scanned opens)
  | .access container _ _ _ _, signed =>
    exact Derivation.respells_access (container.respells signed scanned.1 opens) scanned.2
  | .lookup container _ _ key _ _, signed =>
    exact Derivation.respells_lookup (container.respells signed scanned.1 opens)
      (key.respells false scanned.2 (by simp))
  | .invoke callee _ _ _ _, signed =>
    exact Derivation.respells_invoke (callee.respells signed scanned opens)
  | .call callee _ _ args _ _, signed =>
    exact Derivation.respells_call (callee.respells signed scanned.1 opens)
      (args.respells scanned.2)
  | .literal _ _, true => exact Derivation.respells_negated scanned (opens rfl)
  | .literal _ _, false => exact Derivation.respells_literal scanned
  | .assign _ _ target _ _ value, false =>
    exact Derivation.respells_assign (target.respells false scanned.1 (by simp))
      (value.respells false scanned.2 (by simp)) (value.opens scanned.2)
  | .choice condition _ _ yes _ _ no, false =>
    exact Derivation.respells_choice (condition.respells false scanned.1 (by simp))
      (yes.respells false scanned.2.1 (by simp)) (no.respells false scanned.2.2 (by simp))
      (yes.opens scanned.2.1) (no.opens scanned.2.2)
  | .chain _ _ _ left _ _ right, false =>
    exact Derivation.respells_chain (left.respells false scanned.1 (by simp))
      (right.respells false scanned.2 (by simp)) (right.opens scanned.2)
  | .exponent base _ _ power, false =>
    exact Derivation.respells_exponent (base.respells false scanned.1 (by simp))
      (power.respells false scanned.2 (by simp)) (power.opens scanned.2)
  | .unary op o isOp operand, false =>
    by_cases joins : op = .negate ∧ (operand.tree d).numeralHead = true
    · obtain ⟨rfl, head⟩ := joins
      exact Derivation.respells_joined (operand.respells true scanned fun _ => head) head
    · refine Derivation.respells_unary (operand.respells false scanned (by simp))
        (operand.opens scanned) ?_
      intro negates
      simpa [negates] using joins
  | .name _ _, false => exact Derivation.respells_name scanned
  | .group _ _ inner _ _, false =>
    exact Derivation.respells_group (inner.respells false scanned (by simp))
  | .template _ _ fragments _ _, false =>
    exact Derivation.respells_template (fragments.respells scanned)
  | .name _ _, true => cases (Derivation.numeralHead_resolve ..).symm.trans (opens rfl)
  | .assign .., true | .choice .., true | .chain .., true | .exponent .., true | .unary .., true
  | .group .., true | .template .., true => cases opens rfl

theorem Arguments.respells (args : Arguments assigning) (scanned : args.Scanned) :
    args.Respells d := by
  match args with
  | .one arg => exact Arguments.respells_one (arg.respells false scanned (by simp))
  | .more arg _ _ others =>
    exact Arguments.respells_more (arg.respells false scanned.1 (by simp))
      (others.respells scanned.2)
      (others.opens scanned.2)

theorem Fragments.respells (fragments : Fragments assigning) (scanned : fragments.Scanned) :
    fragments.Respells d := by
  match fragments with
  | .nil => exact Fragments.respells_nil
  | .text _ _ others =>
    exact Fragments.respells_text scanned.1 (others.respells scanned.2.2) scanned.2.1
  | .embed _ _ inner _ _ others =>
    exact Fragments.respells_embed (inner.respells false scanned.1 (by simp))
      (others.respells scanned.2)

end

end Formulae
