import Formulae.Proofs.Spelling.Stream

/-!
Phrases whose operands have been scanned.
-/

namespace Formulae

variable {assigning : Bool}

/-- Whether a text comes first. -/
def Fragments.opensWithText : Fragments assigning → Bool
  | .text .. => true
  | _ => false

mutual

/-- Every operand has been scanned, and no two texts of a template follow each other. -/
def Derivation.Scanned {l : Level} : Derivation assigning l → Prop
  | .lift _ inner => inner.Scanned
  | .assign _ _ target _ _ value => target.Scanned ∧ value.Scanned
  | .choice condition _ _ yes _ _ no => condition.Scanned ∧ yes.Scanned ∧ no.Scanned
  | .chain _ _ _ left _ _ right => left.Scanned ∧ right.Scanned
  | .exponent base _ _ power => base.Scanned ∧ power.Scanned
  | .unary _ _ _ operand => operand.Scanned
  | .step _ operand _ _ => operand.Scanned
  | .access container _ _ field _ => container.Scanned ∧ field.Scanned .expression
  | .lookup container _ _ key _ _ => container.Scanned ∧ key.Scanned
  | .invoke callee _ _ _ _ => callee.Scanned
  | .call callee _ _ args _ _ => callee.Scanned ∧ args.Scanned
  | .literal t _ => t.Scanned .expression
  | .name t _ => t.Scanned .expression
  | .group _ _ inner _ _ => inner.Scanned
  | .template _ _ fragments _ _ => fragments.Scanned

def Arguments.Scanned : Arguments assigning → Prop
  | .one arg => arg.Scanned
  | .more arg _ _ rest => arg.Scanned ∧ rest.Scanned

def Fragments.Scanned : Fragments assigning → Prop
  | .nil => True
  | .text t _ rest => t.Scanned .template ∧ rest.opensWithText = false ∧ rest.Scanned
  | .embed _ _ inner _ _ rest => inner.Scanned ∧ rest.Scanned

end

namespace Token.Stream

variable {mode : Mode} {t : Token} {ts : List Token}

theorem operator {symbol : String} (stream : Stream mode (t :: ts))
    (isOp : t.isOperator symbol = true)
    (other : symbol ≠ "\x60" ∧ symbol ≠ "\x7b" ∧ symbol ≠ "\x7d") : Stream mode ts := by
  cases stream with
  | cons _ _ rest => rwa [Mode.behind_of_isOperator mode isOp other] at rest

theorem operand (stream : Stream mode (t :: ts)) (other : t.kind ≠ .operator) :
    t.Scanned mode ∧ Stream mode ts := by
  cases stream with
  | cons scanned _ rest =>
    rw [Mode.behind_of_kind mode other] at rest
    exact ⟨scanned, rest⟩

theorem inward {symbol : String} (stream : Stream .expression (t :: ts))
    (isOp : t.isOperator symbol = true)
    (marker : symbol = "\x60" ∨ symbol = "\x7b" ∨ symbol = "\x7d") : Stream .template ts := by
  cases stream with
  | cons _ _ rest => rwa [(Mode.behind_of_switches isOp marker).1] at rest

theorem outward {symbol : String} (stream : Stream .template (t :: ts))
    (isOp : t.isOperator symbol = true)
    (marker : symbol = "\x60" ∨ symbol = "\x7b" ∨ symbol = "\x7d") : Stream .expression ts := by
  cases stream with
  | cons _ _ rest => rwa [(Mode.behind_of_switches isOp marker).2] at rest

end Token.Stream

theorem symbol_ne_marker :
    (∀ op : BinaryOp, op.symbol ≠ "\x60" ∧ op.symbol ≠ "\x7b" ∧ op.symbol ≠ "\x7d") ∧
      (∀ op : AssignOp, op.symbol ≠ "\x60" ∧ op.symbol ≠ "\x7b" ∧ op.symbol ≠ "\x7d") ∧
        (∀ op : UnaryOp, op.symbol ≠ "\x60" ∧ op.symbol ≠ "\x7b" ∧ op.symbol ≠ "\x7d") ∧
          ∀ op : StepOp, op.symbol ≠ "\x60" ∧ op.symbol ≠ "\x7b" ∧ op.symbol ≠ "\x7d" := by
  refine ⟨fun op => ?_, fun op => ?_, fun op => ?_, fun op => ?_⟩
  · cases op <;> decide
  · cases op <;> decide
  · match op with
    | .negate | .invert | .step .increment | .step .decrement => decide
  · cases op <;> decide

mutual

/-- The phrases of a text have their operands from it. -/
theorem Derivation.scanned {l : Level} (k : Derivation assigning l) {rest : List Token}
    (stream : Token.Stream .expression (k.tokens ++ rest)) :
    k.Scanned ∧ Token.Stream .expression rest := by
  match k with
  | .lift _ inner => exact inner.scanned stream
  | .assign op _ target o isOp value =>
    rw [Derivation.tokens, List.append_assoc] at stream
    obtain ⟨left, behind⟩ := target.scanned stream
    obtain ⟨right, behind⟩ := value.scanned (behind.operator isOp (symbol_ne_marker.2.1 op))
    exact ⟨⟨left, right⟩, behind⟩
  | .choice condition o isOp yes colon isColon no =>
    rw [Derivation.tokens, List.append_assoc, List.cons_append, List.append_assoc] at stream
    obtain ⟨first, behind⟩ := condition.scanned stream
    obtain ⟨second, behind⟩ := yes.scanned (behind.operator isOp (by decide))
    obtain ⟨third, behind⟩ := no.scanned (behind.operator isColon (by decide))
    exact ⟨⟨first, second, third⟩, behind⟩
  | .chain op _ _ left o isOp right =>
    rw [Derivation.tokens, List.append_assoc] at stream
    obtain ⟨first, behind⟩ := left.scanned stream
    obtain ⟨second, behind⟩ := right.scanned (behind.operator isOp (symbol_ne_marker.1 op))
    exact ⟨⟨first, second⟩, behind⟩
  | .exponent base o isOp power =>
    rw [Derivation.tokens, List.append_assoc] at stream
    obtain ⟨first, behind⟩ := base.scanned stream
    obtain ⟨second, behind⟩ := power.scanned (behind.operator isOp (by decide))
    exact ⟨⟨first, second⟩, behind⟩
  | .unary op o isOp operand =>
    exact operand.scanned (stream.operator isOp (symbol_ne_marker.2.2.1 op))
  | .step op operand o isOp =>
    rw [Derivation.tokens, List.append_assoc] at stream
    obtain ⟨inner, behind⟩ := operand.scanned stream
    exact ⟨inner, behind.operator isOp (symbol_ne_marker.2.2.2 op)⟩
  | .access container o isOp field isName =>
    rw [Derivation.tokens, List.append_assoc] at stream
    obtain ⟨inner, behind⟩ := container.scanned stream
    obtain ⟨name, behind⟩ := (behind.operator isOp (by decide)).operand (by rw [isName]; decide)
    exact ⟨⟨inner, name⟩, behind⟩
  | .lookup container o isOpen key c isClose =>
    rw [Derivation.tokens, List.append_assoc, List.cons_append, List.append_assoc] at stream
    obtain ⟨inner, behind⟩ := container.scanned stream
    obtain ⟨selects, behind⟩ := key.scanned (behind.operator isOpen (by decide))
    exact ⟨⟨inner, selects⟩, behind.operator isClose (by decide)⟩
  | .invoke callee o isOpen c isClose =>
    rw [Derivation.tokens, List.append_assoc] at stream
    obtain ⟨inner, behind⟩ := callee.scanned stream
    exact ⟨inner, (behind.operator isOpen (by decide)).operator isClose (by decide)⟩
  | .call callee o isOpen args c isClose =>
    rw [Derivation.tokens, List.append_assoc, List.cons_append, List.append_assoc] at stream
    obtain ⟨inner, behind⟩ := callee.scanned stream
    obtain ⟨supplied, behind⟩ := args.scanned (behind.operator isOpen (by decide))
    exact ⟨⟨inner, supplied⟩, behind.operator isClose (by decide)⟩
  | .literal t isLiteral => exact stream.operand (by rw [isLiteral]; decide)
  | .name t isName => exact stream.operand (by rw [isName]; decide)
  | .group o isOpen inner c isClose =>
    rw [Derivation.tokens, List.cons_append, List.append_assoc] at stream
    obtain ⟨grouped, behind⟩ := inner.scanned (stream.operator isOpen (by decide))
    exact ⟨grouped, behind.operator isClose (by decide)⟩
  | .template o isOpen fragments c isClose =>
    rw [Derivation.tokens, List.cons_append, List.append_assoc] at stream
    obtain ⟨parts, behind⟩ := fragments.scanned (stream.inward isOpen (by decide))
    exact ⟨parts, behind.outward isClose (by decide)⟩

theorem Arguments.scanned (args : Arguments assigning) {rest : List Token}
    (stream : Token.Stream .expression (args.tokens ++ rest)) :
    args.Scanned ∧ Token.Stream .expression rest := by
  match args with
  | .one arg => exact arg.scanned stream
  | .more arg comma isComma others =>
    rw [Arguments.tokens, List.append_assoc] at stream
    obtain ⟨first, behind⟩ := arg.scanned stream
    obtain ⟨second, behind⟩ := others.scanned (behind.operator isComma (by decide))
    exact ⟨⟨first, second⟩, behind⟩

theorem Fragments.scanned (fragments : Fragments assigning) {rest : List Token}
    (stream : Token.Stream .template (fragments.tokens ++ rest)) :
    fragments.Scanned ∧ Token.Stream .template rest := by
  match fragments with
  | .nil => exact ⟨trivial, stream⟩
  | .text t isText others =>
    obtain ⟨text, behind⟩ := Token.Stream.operand stream (by rw [isText]; decide)
    obtain ⟨parts, behind⟩ := others.scanned behind
    refine ⟨⟨text, ?_, parts⟩, behind⟩
    match others with
    | .nil => rfl
    | .embed .. => rfl
    | .text u isText' more =>
      cases stream with
      | cons _ apart _ => exact absurd isText' (apart rfl isText u _ rfl)
  | .embed o isOpen inner c isClose others =>
    rw [Fragments.tokens, List.cons_append, List.append_assoc] at stream
    obtain ⟨embedded, behind⟩ := inner.scanned (stream.outward isOpen (by decide))
    obtain ⟨parts, behind⟩ := others.scanned (behind.inward isClose (by decide))
    exact ⟨⟨embedded, parts⟩, behind⟩

end

end Formulae
