import Formulae.Proofs.Spelling.Respelling

/-!
Words: what tokens say, without their places.

A tree has the words of the tokens it was made of. In its text a minus sign joins the number
that is right behind it, and all other words stay as they are.
-/

namespace Formulae

/-- What a token says: a text of a template by what it stands for, all else as it is spelled. -/
inductive Word where
  | plain (kind : TokenKind) (text : String)
  | free (text : String)
  deriving DecidableEq, Repr

namespace Word

def operator (symbol : String) : Word := plain .operator symbol

/-- The spelling of a number without a sign. -/
def unsigned? : Word → Option String
  | plain .literal text =>
    match text.toList with
    | c :: _ => if c.isDigit || c == '.' then some text else none
    | [] => none
  | _ => none

theorem unsigned?_literal {text : String} {c : Char} {cs : List Char}
    (spelled : text.toList = c :: cs) :
    (plain .literal text).unsigned? = if c.isDigit || c == '.' then some text else none := by
  simp only [unsigned?, spelled]

theorem unsigned?_literal_nil {text : String} (spelled : text.toList = []) :
    (plain .literal text).unsigned? = none := by
  simp only [unsigned?, spelled]

/-- Whether an operand ends with the word. A step ends one if it stands behind one. -/
def completes (afterOperand : Bool) : Word → Bool
  | plain .literal _ | plain .identifier _ => true
  | plain .operator s => if s = "++" ∨ s = "--" then afterOperand else s ∈ [")", "]", "\x60"]
  | _ => false

/-- The words with each minus sign that is the sign of a number joined to the number. A minus
sign behind an operand is no sign. -/
def joined : Bool → List Word → List Word
  | _, [] => []
  | _, [w] => [w]
  | afterOperand, w :: next :: ws =>
    match if afterOperand = false ∧ w = operator "-" then next.unsigned? else none with
    | some number => plain .literal ("-" ++ number) :: joined true ws
    | none => w :: joined (w.completes afterOperand) (next :: ws)

theorem joined_cons {afterOperand : Bool} {w : Word} {ws : List Word}
    (apart : afterOperand = false → w = operator "-" → ∀ v ∈ ws.head?, v.unsigned? = none) :
    joined afterOperand (w :: ws) = w :: joined (w.completes afterOperand) ws := by
  cases ws with
  | nil => rfl
  | cons next ws =>
    rw [joined]
    split
    · next number found =>
      split at found
      · next sign =>
        rw [apart sign.1 sign.2 next rfl] at found
        cases found
      · cases found
    · rfl

theorem joined_complete (w : Word) (ws : List Word) :
    joined true (w :: ws) = w :: joined (w.completes true) ws := joined_cons nofun

theorem joined_operator {afterOperand : Bool} {symbol : String} (other : symbol ≠ "-")
    (ws : List Word) : joined afterOperand (operator symbol :: ws) =
      operator symbol :: joined ((operator symbol).completes afterOperand) ws :=
  joined_cons fun _ same => absurd (by simpa [operator] using same) other

theorem joined_sign {w : Word} {number : String} (found : w.unsigned? = some number)
    (ws : List Word) :
    joined false (operator "-" :: w :: ws) = plain .literal ("-" ++ number) :: joined true ws := by
  rw [joined, if_pos ⟨rfl, rfl⟩, found]

end Word

/-- What a token says in a mode. -/
def Token.word (mode : Mode) (t : Token) : Word :=
  if mode = .template ∧ t.kind = .literal then .free t.content else .plain t.kind t.text

/-- What the tokens of a text say that starts in a mode. -/
def Token.words : Mode → List Token → List Word
  | _, [] => []
  | mode, t :: ts => t.word mode :: words (mode.behind t) ts

mutual

/-- The words of the tokens that a tree is made of. -/
def Tree.words : Tree → List Word
  | .literal _ text _ => [.plain .literal text]
  | .constant _ s _ | .provided _ s _ | .name _ s => [.plain .identifier s]
  | .group _ inner => .operator "(" :: (inner.words ++ [.operator ")"])
  | .unary _ op operand => .operator op.symbol :: operand.words
  | .binary _ op left right => left.words ++ .operator op.symbol :: right.words
  | .assign _ op target value => target.words ++ .operator op.symbol :: value.words
  | .step _ op operand => operand.words ++ [.operator op.symbol]
  | .member _ container selector => container.words ++ selector.words
  | .call _ callee args =>
    callee.words ++ .operator "(" :: (Tree.argumentWords args ++ [.operator ")"])
  | .choice _ condition yes no =>
    condition.words ++ .operator "?" :: (yes.words ++ .operator ":" :: no.words)
  | .template _ parts => .operator "\x60" :: (Part.words parts ++ [.operator "\x60"])

def Selector.words : Selector → List Word
  | .named s => [.operator ".", .plain .identifier s]
  | .keyed key => .operator "[" :: (key.words ++ [.operator "]"])

def Tree.argumentWords : List Tree → List Word
  | [] => []
  | [t] => t.words
  | t :: ts => t.words ++ .operator "," :: Tree.argumentWords ts

def Part.words : List Part → List Word
  | [] => []
  | .text s :: ps => .free s :: Part.words ps
  | .embed t :: ps => .operator "\x7b" :: (t.words ++ .operator "\x7d" :: Part.words ps)

end

namespace Token

variable {o t : Token} {ts : List Token}

theorem words_operator {symbol : String} (isOp : o.isOperator symbol = true)
    (other : symbol ≠ "\x60" ∧ symbol ≠ "\x7b" ∧ symbol ≠ "\x7d") (ts : List Token) :
    words .expression (o :: ts) = .operator symbol :: words .expression ts := by
  rw [words, Mode.behind_of_isOperator .expression isOp other]
  obtain ⟨kind, text⟩ := isOperator_iff.mp isOp
  simp [word, kind, text, Word.operator]

theorem words_operand (other : t.kind ≠ .operator) (ts : List Token) :
    words .expression (t :: ts) = .plain t.kind t.text :: words .expression ts := by
  rw [words, Mode.behind_of_kind .expression other]
  simp [word]

theorem words_text (isText : t.kind = .literal) (ts : List Token) :
    words .template (t :: ts) = .free t.content :: words .template ts := by
  rw [words, Mode.behind_of_kind .template (by simp [isText])]
  simp [word, isText]

theorem words_inward {symbol : String} (isOp : o.isOperator symbol = true)
    (marker : symbol = "\x60" ∨ symbol = "\x7b" ∨ symbol = "\x7d") (ts : List Token) :
    words .expression (o :: ts) = .operator symbol :: words .template ts := by
  rw [words, (Mode.behind_of_switches isOp marker).1]
  obtain ⟨kind, text⟩ := isOperator_iff.mp isOp
  simp [word, kind, text, Word.operator]

theorem words_outward {symbol : String} (isOp : o.isOperator symbol = true)
    (marker : symbol = "\x60" ∨ symbol = "\x7b" ∨ symbol = "\x7d") (ts : List Token) :
    words .template (o :: ts) = .operator symbol :: words .expression ts := by
  rw [words, (Mode.behind_of_switches isOp marker).2]
  obtain ⟨kind, text⟩ := isOperator_iff.mp isOp
  simp [word, kind, text, Word.operator]

end Token

variable {assigning : Bool} {d : Dialect}

theorem Parser.words_resolve (s : String) (span : Span) :
    (resolve d s span).words = [.plain .identifier s] := by
  unfold resolve
  dsimp only
  split
  · rfl
  · split <;> rfl

theorem Parser.words_of_respelled {signed : Bool} {s : String} {span : Span} {u : Tree}
    (respelled : Tree.Respelled signed (resolve d s span) u) :
    signed = false ∧ u.words = [.plain .identifier s] := by
  unfold resolve at respelled
  dsimp only at respelled
  split at respelled
  · cases respelled
    exact ⟨rfl, rfl⟩
  · split at respelled <;> cases respelled <;> exact ⟨rfl, rfl⟩

theorem Tree.argumentWords_cons (t : Tree) {ts : List Tree} (more : ts ≠ []) :
    argumentWords (t :: ts) = t.words ++ .operator "," :: argumentWords ts := by
  rw [argumentWords]
  exact more

theorem Tree.AllRespelled.ne_nil {ts us : List Tree} (respelled : AllRespelled ts us)
    (more : ts ≠ []) : us ≠ [] := by
  cases respelled with
  | nil => exact absurd rfl more
  | cons => nofun

mutual

/-- The tokens of a phrase say the words of its tree. -/
theorem Derivation.words_tokens {l : Level} (k : Derivation assigning l) (rest : List Token) :
    Token.words .expression (k.tokens ++ rest) =
      (k.tree d).words ++ Token.words .expression rest := by
  match k with
  | .lift _ inner => exact inner.words_tokens rest
  | .assign op _ target o isOp value =>
    rw [Derivation.tokens, List.append_assoc, target.words_tokens, List.cons_append,
      Token.words_operator isOp (symbol_ne_marker.2.1 op), value.words_tokens]
    simp [Tree.words]
  | .choice condition o isOp yes colon isColon no =>
    rw [Derivation.tokens, List.append_assoc, condition.words_tokens, List.cons_append,
      Token.words_operator isOp (by decide), List.append_assoc, yes.words_tokens, List.cons_append,
      Token.words_operator isColon (by decide), no.words_tokens]
    simp [Tree.words]
  | .chain op _ _ left o isOp right =>
    rw [Derivation.tokens, List.append_assoc, left.words_tokens, List.cons_append,
      Token.words_operator isOp (symbol_ne_marker.1 op), right.words_tokens]
    simp [Tree.words]
  | .exponent base o isOp power =>
    rw [Derivation.tokens, List.append_assoc, base.words_tokens, List.cons_append,
      Token.words_operator isOp (by decide), power.words_tokens]
    simp [Tree.words, BinaryOp.symbol]
  | .unary op o isOp operand =>
    rw [Derivation.tokens, List.cons_append, Token.words_operator isOp (symbol_ne_marker.2.2.1 op),
      operand.words_tokens]
    simp [Tree.words]
  | .step op operand o isOp =>
    rw [Derivation.tokens, List.append_assoc, operand.words_tokens, List.singleton_append,
      Token.words_operator isOp (symbol_ne_marker.2.2.2 op)]
    simp [Tree.words]
  | .access container o isOp field isName =>
    rw [Derivation.tokens, List.append_assoc, container.words_tokens, List.cons_append,
      Token.words_operator isOp (by decide), List.singleton_append,
      Token.words_operand (by simp [isName]), isName]
    simp [Tree.words, Selector.words]
  | .lookup container o isOpen key c isClose =>
    rw [Derivation.tokens, List.append_assoc, container.words_tokens, List.cons_append,
      Token.words_operator isOpen (by decide), List.append_assoc, key.words_tokens,
      List.singleton_append, Token.words_operator isClose (by decide)]
    simp [Tree.words, Selector.words]
  | .invoke callee o isOpen c isClose =>
    rw [Derivation.tokens, List.append_assoc, callee.words_tokens, List.cons_append,
      Token.words_operator isOpen (by decide), List.singleton_append,
      Token.words_operator isClose (by decide)]
    simp [Tree.words, Tree.argumentWords]
  | .call callee o isOpen args c isClose =>
    rw [Derivation.tokens, List.append_assoc, callee.words_tokens, List.cons_append,
      Token.words_operator isOpen (by decide), List.append_assoc, args.words_tokens,
      List.singleton_append, Token.words_operator isClose (by decide)]
    simp [Tree.words]
  | .literal t isLiteral =>
    rw [Derivation.tokens, List.singleton_append, Token.words_operand (by simp [isLiteral]),
      isLiteral]
    simp [Tree.words]
  | .name t isName =>
    rw [Derivation.tokens, List.singleton_append, Token.words_operand (by simp [isName]), isName]
    simp [Parser.words_resolve]
  | .group o isOpen inner c isClose =>
    rw [Derivation.tokens, List.cons_append, Token.words_operator isOpen (by decide),
      List.append_assoc, inner.words_tokens, List.singleton_append,
      Token.words_operator isClose (by decide)]
    simp [Tree.words]
  | .template o isOpen fragments c isClose =>
    rw [Derivation.tokens, List.cons_append, Token.words_inward isOpen (by decide),
      List.append_assoc, fragments.words_tokens, List.singleton_append,
      Token.words_outward isClose (by decide)]
    simp [Tree.words]

theorem Arguments.words_tokens (args : Arguments assigning) (rest : List Token) :
    Token.words .expression (args.tokens ++ rest) =
      Tree.argumentWords (args.trees d) ++ Token.words .expression rest := by
  match args with
  | .one arg =>
    rw [Arguments.tokens, arg.words_tokens, Arguments.trees, Tree.argumentWords]
  | .more arg comma isComma others =>
    rw [Arguments.tokens, List.append_assoc, arg.words_tokens, List.cons_append,
      Token.words_operator isComma (by decide), others.words_tokens, Arguments.trees,
      Tree.argumentWords_cons _ others.trees_ne_nil]
    simp

theorem Fragments.words_tokens (fragments : Fragments assigning) (rest : List Token) :
    Token.words .template (fragments.tokens ++ rest) =
      Part.words (fragments.parts d) ++ Token.words .template rest := by
  match fragments with
  | .nil => rfl
  | .text t isText others =>
    rw [Fragments.tokens, List.cons_append, Token.words_text isText, others.words_tokens,
      Fragments.parts, Part.words, List.cons_append]
  | .embed o isOpen inner c isClose others =>
    rw [Fragments.tokens, List.cons_append, Token.words_outward isOpen (by decide),
      List.append_assoc, inner.words_tokens, List.cons_append,
      Token.words_inward isClose (by decide), others.words_tokens, Fragments.parts, Part.words]
    simp

end

/-- The minus sign that is joined, if any. -/
def Word.sign (signed : Bool) : List Word := if signed then [.operator "-"] else []

@[simp] theorem Word.sign_false : sign false = [] := rfl

@[simp] theorem Word.sign_true : sign true = [.operator "-"] := rfl

theorem Tree.unsigned?_of_numeralHead {m : Mark} {text : String} {value : Value}
    (opens : (Tree.literal m text value).numeralHead = true) :
    (Word.plain .literal text).unsigned? = some text := by
  rw [numeralHead] at opens
  split at opens
  · next spelled =>
    rw [Word.unsigned?_literal spelled]
    exact if_pos opens
  · cases opens

/-- An operand starts with a number without a sign just if its text does. -/
theorem Derivation.exists_first_word {l : Level} (k : Derivation assigning l)
    (tight : Level.unary.rank ≤ l.rank) :
    ∃ w ws, (k.tree d).words = w :: ws ∧
      ((k.tree d).numeralHead = false → w.unsigned? = none) := by
  match k with
  | .lift loose inner =>
    have tighter : Level.unary.rank ≤ l.next.rank := by
      rw [Level.rank_next loose]
      omega
    exact inner.exists_first_word tighter
  | .assign .. | .choice .. | .exponent .. => exact absurd tight (by decide)
  | .chain op atLevel _ _ _ _ _ =>
    subst atLevel
    exact absurd tight (level_lt_unary op)
  | .unary op _ _ _ => exact ⟨_, _, rfl, fun _ => rfl⟩
  | .step _ operand _ _ | .access operand _ _ _ _ | .lookup operand _ _ _ _ _
  | .invoke operand _ _ _ _ | .call operand _ _ _ _ _ =>
    obtain ⟨w, ws, same, first⟩ := operand.exists_first_word (by decide)
    exact ⟨w, _, by rw [tree, Tree.words, same]; rfl, first⟩
  | .literal t _ =>
    refine ⟨_, _, rfl, fun other => ?_⟩
    rw [tree, Tree.numeralHead] at other
    cases spelled : t.text.toList with
    | nil => exact Word.unsigned?_literal_nil spelled
    | cons c cs =>
      rw [spelled] at other
      rw [Word.unsigned?_literal spelled]
      exact if_neg (by simpa using other)
  | .name t _ => exact ⟨_, _, by rw [tree, Parser.words_resolve], fun _ => rfl⟩
  | .group .. | .template .. => exact ⟨_, _, rfl, fun _ => rfl⟩

/-- Joined, the first words are the second, and they lead from one question of an operand in
front to another. -/
def Word.Leads (before : Bool) (ws us : List Word) (behind : Bool) : Prop :=
  ∀ rest, joined before (ws ++ rest) = us ++ joined behind rest

namespace Word.Leads

variable {a b c : Bool} {ws us vs ts : List Word}

theorem nil : Leads a [] [] a := fun _ => rfl

theorem append (first : Leads a ws us b) (second : Leads b vs ts c) :
    Leads a (ws ++ vs) (us ++ ts) c := by
  intro rest
  rw [List.append_assoc, first, second, List.append_assoc]

theorem plain (kind : TokenKind) (text : String) (operand : kind ≠ .operator) :
    Leads a [.plain kind text] [.plain kind text] ((Word.plain kind text).completes a) :=
  fun _ => joined_cons fun _ same => absurd (Word.plain.inj same).1 operand

theorem free (text : String) : Leads a [.free text] [.free text] false :=
  fun _ => joined_cons nofun

theorem operator {symbol : String} (other : symbol ≠ "-")
    (completes : (Word.operator symbol).completes a = b) :
    Leads a [.operator symbol] [.operator symbol] b := by
  subst completes
  exact fun _ => joined_operator other _

/-- Behind an operand a minus sign is no sign. -/
theorem following {symbol : String} (completes : (Word.operator symbol).completes true = b) :
    Leads true [.operator symbol] [.operator symbol] b := by
  subst completes
  exact fun _ => joined_complete _ _

end Word.Leads

theorem BinaryOp.leads (op : BinaryOp) :
    Word.Leads true [.operator op.symbol] [.operator op.symbol] false :=
  .following (by cases op <;> rfl)

theorem AssignOp.leads (op : AssignOp) :
    Word.Leads true [.operator op.symbol] [.operator op.symbol] false :=
  .following (by cases op <;> rfl)

theorem StepOp.leads (op : StepOp) :
    Word.Leads true [.operator op.symbol] [.operator op.symbol] true :=
  .following (by cases op <;> rfl)

open Word

theorem UnaryOp.leads {op : UnaryOp} {w : Word} {ws us : List Word}
    (apart : op = .negate → w.unsigned? = none) (operand : Leads false (w :: ws) us true) :
    Leads false (.operator op.symbol :: w :: ws) (.operator op.symbol :: us) true := by
  intro rest
  have completes : (Word.operator op.symbol).completes false = false := by
    match op with
    | .negate | .invert | .step .increment | .step .decrement => rfl
  have symbol : op ≠ .negate → op.symbol ≠ "-" := by
    match op with
    | .negate => exact fun other => absurd rfl other
    | .invert | .step .increment | .step .decrement => decide
  have separate : joined false (.operator op.symbol :: (w :: ws ++ rest)) =
      .operator op.symbol :: joined false (w :: ws ++ rest) := by
    by_cases negates : op = .negate
    · subst negates
      refine joined_cons fun _ _ v first => ?_
      cases first
      exact apart rfl
    · rw [joined_operator (symbol negates), completes]
  rw [List.cons_append, separate, operand, List.cons_append]

mutual

/-- Joined, the words of a phrase are those of what its text reads as. -/
theorem Derivation.joined_words {l : Level} (k : Derivation assigning l) {signed : Bool} {u : Tree}
    (respelled : Tree.Respelled signed (k.tree d) u) :
    Leads false (sign signed ++ (k.tree d).words) u.words true := by
  match k with
  | .lift _ inner => exact inner.joined_words respelled
  | .assign op _ target _ _ value =>
    cases respelled with
    | assign first second =>
      exact (target.joined_words first).append (op.leads.append (value.joined_words second))
  | .choice condition _ _ yes _ _ no =>
    cases respelled with
    | choice first second third =>
      have question : Leads true [.operator "?"] [.operator "?"] false := .following rfl
      have colon : Leads true [.operator ":"] [.operator ":"] false := .following rfl
      exact (condition.joined_words first).append (question.append
        ((yes.joined_words second).append (colon.append (no.joined_words third))))
  | .chain op _ _ left _ _ right =>
    cases respelled with
    | binary first second =>
      exact (left.joined_words first).append (op.leads.append (right.joined_words second))
  | .exponent base _ _ power =>
    cases respelled with
    | binary first second =>
      exact (base.joined_words first).append
        (BinaryOp.exponent.leads.append (power.joined_words second))
  | .unary op _ _ operand =>
    cases respelled with
    | unary apart inner =>
      -- A minus sign that was not joined stands before something else than a bare number.
      obtain ⟨w, ws, same, first⟩ := operand.exists_first_word (d := d) (Nat.le_refl _)
      have leads := operand.joined_words inner
      rw [sign_false, List.nil_append, same] at leads
      rw [Derivation.tree, Tree.words, Tree.words, same]
      exact UnaryOp.leads (fun negates => first (apart negates)) leads
    | joined inner => exact operand.joined_words inner
  | .step op operand _ _ =>
    cases respelled with
    | step inner =>
      rw [Derivation.tree, Tree.words, Tree.words, ← List.append_assoc]
      exact (operand.joined_words inner).append op.leads
  | .access container _ _ field _ =>
    cases respelled with
    | member inner selector =>
      cases selector
      have point : Leads true [.operator "."] [.operator "."] false := .following rfl
      rw [Derivation.tree, Tree.words, Tree.words, ← List.append_assoc]
      exact (container.joined_words inner).append
        (point.append (.plain .identifier field.text (by decide)))
  | .lookup container _ _ key _ _ =>
    cases respelled with
    | member inner selector =>
      cases selector with
      | keyed selects =>
        have opening : Leads true [.operator "["] [.operator "["] false := .following rfl
        have closing : Leads true [.operator "]"] [.operator "]"] true := .following rfl
        rw [Derivation.tree, Tree.words, Tree.words, ← List.append_assoc]
        exact (container.joined_words inner).append
          (opening.append ((key.joined_words selects).append closing))
  | .invoke callee _ _ _ _ =>
    cases respelled with
    | call inner args =>
      cases args
      have opening : Leads true [.operator "("] [.operator "("] false := .following rfl
      have closing : Leads false [.operator ")"] [.operator ")"] true :=
        .operator (by decide) rfl
      rw [Derivation.tree, Tree.words, Tree.words, ← List.append_assoc]
      exact (callee.joined_words inner).append (opening.append closing)
  | .call callee _ _ args _ _ =>
    cases respelled with
    | call inner supplied =>
      have opening : Leads true [.operator "("] [.operator "("] false := .following rfl
      have closing : Leads true [.operator ")"] [.operator ")"] true := .following rfl
      rw [Derivation.tree, Tree.words, Tree.words, ← List.append_assoc]
      exact (callee.joined_words inner).append
        (opening.append ((args.joined_words supplied).append closing))
  | .literal t _ =>
    cases respelled with
    | literal => exact .plain .literal t.text (by decide)
    | negated opens _ => exact fun rest => joined_sign (Tree.unsigned?_of_numeralHead opens) rest
  | .name t _ =>
    obtain ⟨rfl, same⟩ := Parser.words_of_respelled respelled
    rw [Derivation.tree, Parser.words_resolve, same]
    exact .plain .identifier t.text (by decide)
  | .group _ _ inner _ _ =>
    cases respelled with
    | group grouped =>
      have opening : Leads false [.operator "("] [.operator "("] false :=
        .operator (by decide) rfl
      have closing : Leads true [.operator ")"] [.operator ")"] true := .following rfl
      exact opening.append ((inner.joined_words grouped).append closing)
  | .template _ _ fragments _ _ =>
    cases respelled with
    | template parts =>
      obtain ⟨behind, leads⟩ := fragments.joined_words parts true
      have opening : Leads false [.operator "\x60"] [.operator "\x60"] true :=
        .operator (by decide) rfl
      have closing : Leads behind [.operator "\x60"] [.operator "\x60"] true :=
        .operator (by decide) rfl
      exact opening.append (leads.append closing)

theorem Arguments.joined_words (args : Arguments assigning) {us : List Tree}
    (respelled : Tree.AllRespelled (args.trees d) us) :
    Leads false (Tree.argumentWords (args.trees d)) (Tree.argumentWords us) true := by
  match args with
  | .one arg =>
    obtain _ | ⟨first, others⟩ := respelled
    cases others
    exact arg.joined_words first
  | .more arg _ _ others =>
    obtain _ | ⟨first, behind⟩ := respelled
    have comma : Leads true [.operator ","] [.operator ","] false := .following rfl
    rw [Arguments.trees, Tree.argumentWords_cons _ others.trees_ne_nil,
      Tree.argumentWords_cons _ (behind.ne_nil others.trees_ne_nil)]
    exact (arg.joined_words first).append (comma.append (others.joined_words behind))

theorem Fragments.joined_words (fragments : Fragments assigning) {qs : List Part}
    (respelled : Part.AllRespelled (fragments.parts d) qs) (before : Bool) :
    ∃ behind, Leads before (Part.words (fragments.parts d)) (Part.words qs) behind := by
  match fragments with
  | .nil =>
    cases respelled
    exact ⟨before, .nil⟩
  | .text t _ others =>
    obtain _ | ⟨rest⟩ := respelled
    obtain ⟨behind, leads⟩ := others.joined_words rest false
    exact ⟨behind, (Leads.free t.content).append leads⟩
  | .embed _ _ inner _ _ others =>
    obtain _ | _ | ⟨first, rest⟩ := respelled
    have opening : Leads before [.operator "\x7b"] [.operator "\x7b"] false :=
      .operator (by decide) rfl
    have closing : Leads true [.operator "\x7d"] [.operator "\x7d"] false := .following rfl
    obtain ⟨behind, leads⟩ := others.joined_words rest false
    exact ⟨behind, opening.append ((inner.joined_words first).append (closing.append leads))⟩

end

end Formulae
