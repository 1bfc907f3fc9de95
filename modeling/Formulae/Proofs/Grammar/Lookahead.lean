import Formulae.Proofs.Grammar.Soundness

/-!
What a parser makes of some tokens, and of the same tokens with more behind them.

A parser goes from token to token and sees one of them at a time. If it fails at a token,
more tokens behind it change nothing. If it gets to the end of the tokens, then with more of
them it gets as far, and an error can only be about the tokens that came.
-/

namespace Formulae

/-- The token that an error is about, by its text and its place. -/
def ParseError.token? : ParseError → Option (String × Span)
  | unexpectedToken _ actual span => some (actual, span)
  | invalidToken token span => some (token, span)
  | unexpectedEnd | nestingTooDeep _ => none

/-- How errors refer to a token. -/
def Token.name (t : Token) : String × Span := (t.text, t.span)

namespace Parser

variable {α β : Type}

/-- An error is about one of the tokens, and what is left is an end of them. -/
def Stays (ts : List Token) : Except ParseError (α × Cursor) → Prop
  | .ok (_, c) => c.rest <:+ ts
  | .error e => ∀ name, e.token? = some name → ∃ t ∈ ts, t.name = name

/-- The cursor with more tokens at the end. -/
def Cursor.append (c : Cursor) (more : List Token) : Cursor := ⟨c.last, c.rest ++ more⟩

/-- A first reading and a second one that has more tokens at the end. -/
inductive Outlook (more : List Token) :
    Except ParseError (α × Cursor) → Except ParseError (α × Cursor) → Prop
  /-- Both go on, with tokens left to both. -/
  | same (a : α) {c : Cursor} (left : c.rest ≠ []) :
      Outlook more (.ok (a, c)) (.ok (a, c.append more))
  /-- Both fail at a token. -/
  | error {e : ParseError} (about : e.token? ≠ none) : Outlook more (.error e) (.error e)
  /-- The first one came to the end of its tokens. -/
  | past {x y : Except ParseError (α × Cursor)} (ended : Stays [] x) (stays : Stays more y) :
      Outlook more x y

theorem Stays.mono {ts us : List Token} {x : Except ParseError (α × Cursor)} (stays : Stays ts x)
    (part : ts <:+ us) : Stays us x := by
  match x with
  | .ok _ => exact List.IsSuffix.trans stays part
  | .error e =>
    intro name about
    obtain ⟨t, inside, named⟩ := stays name about
    exact ⟨t, part.subset inside, named⟩

theorem Stays.bind {ts : List Token} {x : Except ParseError (α × Cursor)}
    {f : α × Cursor → Except ParseError (β × Cursor)} (first : Stays ts x)
    (next : ∀ a c, Stays c.rest (f (a, c))) : Stays ts (x >>= f) := by
  match x with
  | .ok (a, c) => exact (next a c).mono first
  | .error e => exact first

theorem Cursor.next_suffix (c : Cursor) : c.next.rest <:+ c.rest := by
  obtain ⟨s, _ | ⟨t, rest⟩⟩ := c
  · exact List.suffix_refl _
  · exact List.suffix_cons t rest

/-- An error about the next token. -/
def Cursor.failure (c : Cursor) (e : Token → ParseError) : ParseError :=
  match c.rest with
  | t :: _ => e t
  | [] => .unexpectedEnd

theorem Cursor.stays_failure (c : Cursor) {e : Token → ParseError}
    (about : ∀ t, (e t).token? = some t.name) :
    Stays c.rest (.error (c.failure e) : Except ParseError (α × Cursor)) := by
  obtain ⟨s, _ | ⟨t, rest⟩⟩ := c
  · nofun
  · intro name named
    exact ⟨t, .head _, Option.some.inj ((about t).symm.trans named)⟩

theorem Cursor.isAt_append {c : Cursor} (left : c.rest ≠ []) (more : List Token) (symbol : String) :
    (c.append more).isAt symbol = c.isAt symbol := by
  obtain ⟨s, _ | ⟨t, rest⟩⟩ := c
  · exact absurd rfl left
  · rfl

theorem Cursor.next_append {c : Cursor} (left : c.rest ≠ []) (more : List Token) :
    (c.append more).next = c.next.append more := by
  obtain ⟨s, _ | ⟨t, rest⟩⟩ := c
  · exact absurd rfl left
  · rfl

/-- A step, and the same step as it is taken with more tokens at the end. Up to a number of
tokens the second one does what the first one does as long as these tokens last. -/
structure Foresees (more : List Token) (count : Nat) (f g : Step α) : Prop where
  stays : ∀ c, Stays c.rest (f c)
  stays' : ∀ c, Stays c.rest (g c)
  outlook : ∀ c, c.rest ≠ [] → c.rest.length ≤ count → Outlook more (f c) (g (c.append more))

/-- A step that takes a token. -/
def Takes (f : Step α) : Prop := ∀ c a c', f c = .ok (a, c') → c'.rest.length < c.rest.length

namespace Foresees

variable {more : List Token} {count : Nat}

theorem mono {f g : Step α} (foresees : Foresees more count f g) {fewer : Nat}
    (within : fewer ≤ count) : Foresees more fewer f g where
  stays := foresees.stays
  stays' := foresees.stays'
  outlook c left few := foresees.outlook c left (Nat.le_trans few within)

theorem pure (a : α) : Foresees more count (fun c => .ok (a, c)) (fun c => .ok (a, c)) where
  stays c := List.suffix_refl c.rest
  stays' c := List.suffix_refl c.rest
  outlook _ left _ := .same a left

theorem failure (e : Token → ParseError) (about : ∀ t, (e t).token? = some t.name) :
    Foresees more count (fun c => (.error (c.failure e) : Except _ (α × Cursor)))
      (fun c => .error (c.failure e)) where
  stays c := c.stays_failure about
  stays' c := c.stays_failure about
  outlook c left _ := by
    obtain ⟨s, _ | ⟨t, rest⟩⟩ := c
    · exact absurd rfl left
    · refine .error ?_
      change (e t).token? ≠ none
      rw [about]
      nofun

theorem unexpected (expected : String) :
    Foresees more count (fun c => (.error (c.unexpected expected) : Except _ (α × Cursor)))
      (fun c => .error (c.unexpected expected)) :=
  failure (fun t => .unexpectedToken expected t.text t.span) fun _ => rfl

theorem node (limit : Nat) (tree : Cursor → Tree) (local' : ∀ c, tree (c.append more) = tree c) :
    Foresees more count (fun c => do let t ← limited limit (tree c); return (t, c))
      (fun c => do let t ← limited limit (tree c); return (t, c)) := by
  have stays (c : Cursor) : Stays c.rest (do let t ← limited limit (tree c); return (t, c)) := by
    unfold limited
    split
    · nofun
    · exact List.suffix_refl c.rest
  refine ⟨stays, stays, fun c left _ => ?_⟩
  rw [local']
  unfold limited
  split
  · exact .past nofun nofun
  · exact .same _ left

/-- Behind the next token. -/
theorem next {f g : Step α} (foresees : Foresees more count f g) :
    Foresees more (count + 1) (fun c => f c.next) (fun c => g c.next) where
  stays c := (foresees.stays c.next).mono c.next_suffix
  stays' c := (foresees.stays' c.next).mono c.next_suffix
  outlook c left few := by
    rw [Cursor.next_append left]
    obtain ⟨s, _ | ⟨t, rest⟩⟩ := c
    · exact absurd rfl left
    · cases rest with
      | nil => exact .past (foresees.stays ⟨t.span, []⟩) (foresees.stays' ⟨t.span, more⟩)
      | cons u rest => exact foresees.outlook ⟨t.span, u :: rest⟩ nofun (Nat.le_of_succ_le_succ few)

/-- Whether an operator comes next is seen from one token. -/
theorem ite {f g f' g' : Step α} (symbol : String) (yes : Foresees more count f g)
    (no : Foresees more count f' g') :
    Foresees more count (fun c => if c.isAt symbol then f c else f' c)
      (fun c => if c.isAt symbol then g c else g' c) := by
  refine ⟨fun c => ?_, fun c => ?_, fun c left few => ?_⟩
  · split
    · exact yes.stays c
    · exact no.stays c
  · split
    · exact yes.stays' c
    · exact no.stays' c
  · rw [Cursor.isAt_append left]
    split
    · exact yes.outlook c left few
    · exact no.outlook c left few

/-- A choice that does not depend on the tokens. -/
theorem choose (p : Prop) [Decidable p] {f g f' g' : Step α} (yes : Foresees more count f g)
    (no : Foresees more count f' g') :
    Foresees more count (fun c => if p then f c else f' c) (fun c => if p then g c else g' c) := by
  split
  · exact yes
  · exact no

theorem unlessEmpty (a : α) {f g : Step α} (foresees : Foresees more count f g) :
    Foresees more count (fun c => if c.rest.isEmpty then .ok (a, c) else f c)
      (fun c => if c.rest.isEmpty then .ok (a, c) else g c) := by
  refine ⟨fun c => ?_, fun c => ?_, fun c left few => ?_⟩
  · split
    · exact List.suffix_refl c.rest
    · exact foresees.stays c
  · split
    · exact List.suffix_refl c.rest
    · exact foresees.stays' c
  · rw [if_neg (by simpa using left), if_neg (by simp [Cursor.append, left])]
    exact foresees.outlook c left few

theorem follows {d : Dialect} {f g : Step α} {f' g' : Power → FollowingRule → Step α}
    (none : Foresees more count f g)
    (some : ∀ p rule, Foresees more count (f' p rule) (g' p rule)) :
    Foresees more count
      (fun c => match c.following? d with
        | .none => f c
        | .some (p, rule) => f' p rule c)
      (fun c => match c.following? d with
        | .none => g c
        | .some (p, rule) => g' p rule c) := by
  refine ⟨fun c => ?_, fun c => ?_, fun c left few => ?_⟩
  · split
    · exact none.stays c
    · exact (some _ _).stays c
  · split
    · exact none.stays' c
    · exact (some _ _).stays' c
  · have seen : (c.append more).following? d = c.following? d := by
      obtain ⟨s, _ | ⟨t, rest⟩⟩ := c
      · exact absurd rfl left
      · rfl
    rw [seen]
    split
    · exact none.outlook c left few
    · exact (some _ _).outlook c left few

theorem bind {f g : Step α} {f' g' : α × Cursor → Except ParseError (β × Cursor)}
    (first : Foresees more count f g)
    (next : ∀ a, Foresees more count (fun c => f' (a, c)) (fun c => g' (a, c))) :
    Foresees more count (fun c => f c >>= f') (fun c => g c >>= g') := by
  refine ⟨fun c => (first.stays c).bind fun a => (next a).stays,
    fun c => (first.stays' c).bind fun a => (next a).stays', fun c left few => ?_⟩
  have reached := first.outlook c left few
  have stays := first.stays c
  generalize f c = x, g (c.append more) = y at reached stays
  cases reached with
  | same a left => exact (next a).outlook _ left (Nat.le_trans stays.length_le few)
  | error about => exact .error about
  | past ended stays =>
    exact .past (ended.bind fun a => (next a).stays) (stays.bind fun a => (next a).stays')

/-- What comes behind a step that takes a token has one token less. -/
theorem bindTaking {f g : Step α} {f' g' : α × Cursor → Except ParseError (β × Cursor)}
    (takes : Takes f) (first : Foresees more (count + 1) f g)
    (next : ∀ a, Foresees more count (fun c => f' (a, c)) (fun c => g' (a, c))) :
    Foresees more (count + 1) (fun c => f c >>= f') (fun c => g c >>= g') := by
  refine ⟨fun c => (first.stays c).bind fun a => (next a).stays,
    fun c => (first.stays' c).bind fun a => (next a).stays', fun c left few => ?_⟩
  have reached := first.outlook c left few
  have taken := takes c
  generalize f c = x, g (c.append more) = y at reached taken
  cases reached with
  | same a left =>
    have fewer := taken a _ rfl
    exact (next a).outlook _ left (by omega)
  | error about => exact .error about
  | past ended stays =>
    exact .past (ended.bind fun a => (next a).stays) (stays.bind fun a => (next a).stays')

theorem demand (symbol : String) {f g : Cursor → Except ParseError (β × Cursor)}
    (next : Foresees more count f g) :
    Foresees more count (fun c => demand symbol c >>= f) (fun c => demand symbol c >>= g) := by
  have split (h : Cursor → Except ParseError (β × Cursor)) (c : Cursor) :
      (Parser.demand symbol c >>= h) =
        if c.isAt symbol then h c.next else .error (c.unexpected ("'" ++ symbol ++ "'")) := by
    unfold Parser.demand
    split <;> rfl
  simp only [split]
  exact ite symbol ((Foresees.next next).mono (Nat.le_succ count)) (unexpected _)

theorem identifier : Foresees more count identifier identifier := by
  have stays (c : Cursor) : Stays c.rest (Parser.identifier c) := by
    unfold Parser.identifier
    split
    · next t rest front =>
      split
      · rw [front]
        exact List.suffix_cons t rest
      · exact c.stays_failure fun _ => rfl
    · nofun
  refine ⟨stays, stays, fun c left _ => ?_⟩
  obtain ⟨s, _ | ⟨t, rest⟩⟩ := c
  · exact absurd rfl left
  · unfold Parser.identifier Cursor.append
    dsimp only [List.cons_append]
    split
    · cases rest with
      | nil => exact .past (List.suffix_refl []) (List.suffix_refl more)
      | cons u rest => exact .same (α := String) t.text (c := ⟨t.span, u :: rest⟩) nofun
    · exact .error nofun

theorem error {e : ParseError} (general : e.token? = none) :
    Foresees more count (fun _ => (.error e : Except _ (α × Cursor))) (fun _ => .error e) := by
  have stays (ts : List Token) : Stays ts (.error e : Except _ (α × Cursor)) := by
    intro name about
    rw [general] at about
    cases about
  exact ⟨fun c => stays c.rest, fun c => stays c.rest, fun _ _ _ => .past (stays []) (stays more)⟩

/-- What depends on the next token first of all. -/
theorem head (f' : Token → Step α) {f : Step α} (ends : ∀ s, f ⟨s, []⟩ = .error .unexpectedEnd)
    (starts : ∀ s t rest, f ⟨s, t :: rest⟩ = f' t ⟨s, t :: rest⟩)
    (each : ∀ t, Foresees more count (f' t) (f' t)) : Foresees more count f f := by
  have stays (c : Cursor) : Stays c.rest (f c) := by
    obtain ⟨s, _ | ⟨t, rest⟩⟩ := c
    · rw [ends]
      nofun
    · rw [starts]
      exact (each t).stays _
  refine ⟨stays, stays, fun c left few => ?_⟩
  obtain ⟨s, _ | ⟨t, rest⟩⟩ := c
  · exact absurd rfl left
  · rw [Cursor.append, List.cons_append, starts, starts]
    exact (each t).outlook _ left few

/-- A loop with a bound on its rounds, where each round takes a token. -/
theorem loop {ι : Type} {f : Nat → ι → Step α} (zero : ∀ i c, Stays c.rest (f 0 i c))
    (round : ∀ count bound bound', (∀ i, Foresees more count (f bound i) (f bound' i)) →
      ∀ i, Foresees more (count + 1) (f (bound + 1) i) (f (bound' + 1) i)) (i : ι) :
    Foresees more count (fun c => f c.rest.length i c) (fun c => f c.rest.length i c) := by
  have none {bound bound' : Nat} (stays : ∀ i c, Stays c.rest (f bound i c))
      (stays' : ∀ i c, Stays c.rest (f bound' i c)) (i : ι) :
      Foresees more 0 (f bound i) (f bound' i) :=
    ⟨stays i, stays' i, fun c left few =>
      absurd (List.length_eq_zero_iff.mp (Nat.le_zero.mp few)) left⟩
  have stays (bound : Nat) : ∀ i c, Stays c.rest (f bound i c) := by
    induction bound with
    | zero => exact zero
    | succ bound inductionHypothesis =>
      exact fun i => (round 0 bound bound (none inductionHypothesis inductionHypothesis) i).stays
  have bounded (count : Nat) : ∀ bound bound', count ≤ bound → count ≤ bound' →
      ∀ i, Foresees more count (f bound i) (f bound' i) := by
    induction count with
    | zero => exact fun bound bound' _ _ => none (stays bound) (stays bound')
    | succ count inductionHypothesis =>
      intro bound bound' enough enough'
      obtain ⟨bound, rfl⟩ := Nat.exists_eq_add_of_lt enough
      obtain ⟨bound', rfl⟩ := Nat.exists_eq_add_of_lt enough'
      exact round count _ _ (inductionHypothesis _ _ (by omega) (by omega))
  refine ⟨fun c => stays _ i c, fun c => stays _ i c, fun c left _ => ?_⟩
  have enough : c.rest.length ≤ (c.append more).rest.length := by simp [Cursor.append]
  exact (bounded c.rest.length _ _ (Nat.le_refl _) enough i).outlook c left (Nat.le_refl _)

end Foresees

/-- The part that `t`, the next token, starts. -/
def partAt (inner : Nat → Step Tree) (t : Token) : Step Part := fun c =>
  match t.kind with
  | .literal => .ok (.text t.content, c.next)
  | .operator =>
    if t.text = "\x7b" then do
      let (tree, c) ← inner Power.loosest c.next
      let c ← demand "\x7d" c
      return (.embed tree, c)
    else .error (c.unexpected "template text")
  | _ => .error (c.unexpected "template text")

/-- The operand that `t`, the next token, starts. -/
def operandAt (d : Dialect) (limit : Nat) (inner : Nat → Step Tree) (t : Token) : Step Tree :=
  fun c => match t.kind with
  | .literal => .ok (.literal (.over t.span []) t.text (t.value.getD .empty), c.next)
  | .identifier => .ok (resolve d t.text t.span, c.next)
  | .operator =>
    match d.opening[t.text]? with
    | some rule => opened limit inner t.span rule c.next
    | none => .error (c.failure fun t => .invalidToken t.text t.span)
  | _ => .error (c.failure fun t => .invalidToken t.text t.span)

section Rules

variable {assigning : Bool} {d : Dialect} {limit : Nat} {more : List Token}
  {inner : Nat → Step Tree} (sound : Sound d assigning inner)
  (foreseen : ∀ min count, Foresees more count (inner min) (inner min))

include sound in
theorem takes_inner (min : Nat) : Takes (inner min) := by
  intro c t c' reads
  obtain ⟨k, between, _⟩ := sound min c t c' reads
  have nonempty := List.length_pos_iff.mpr k.tokens_ne_nil
  rw [between.tokens, List.length_append]
  omega

include sound in
theorem takes_part : Takes (part inner) := by
  intro c p c' reads
  obtain ⟨front, nonempty, tokens, _⟩ := sound.part (part_eq_ok_iff.mp reads)
  have positive := List.length_pos_iff.mpr nonempty
  rw [tokens, List.length_append]
  omega

include foreseen

theorem foresees_part (count : Nat) : Foresees more count (part inner) (part inner) := by
  refine Foresees.head (partAt inner) (fun _ => rfl) (fun s t rest => ?_) fun t => ?_
  · rfl
  · unfold partAt
    split
    · exact (Foresees.pure (Part.text t.content)).next.mono (Nat.le_succ count)
    · split
      · refine Foresees.mono (Foresees.next (Foresees.bind (foreseen _ count) fun tree => ?_))
          (Nat.le_succ count)
        exact Foresees.demand "\x7d" (Foresees.pure _)
      · exact Foresees.unexpected _
    · exact Foresees.unexpected _

include sound

theorem foresees_parts (count : Nat) : Foresees more count (fun c => parts inner c.rest.length c)
    (fun c => parts inner c.rest.length c) := by
  have closing (count : Nat) : Foresees more count (fun c => .ok (([] : List Part), c.next))
      (fun c => .ok ([], c.next)) := (Foresees.pure []).next.mono (Nat.le_succ count)
  refine Foresees.loop (ι := Unit) (f := fun bound _ => parts inner bound) (fun _ c => ?_)
    (fun count bound bound' others _ => ?_) ()
  · have ends : Foresees more 0 (fun c => parts inner 0 c) (fun c => parts inner 0 c) := by
      unfold parts
      exact Foresees.ite _ (closing 0) (Foresees.error rfl)
    exact ends.stays c
  · change Foresees more _ (fun c => parts inner (bound + 1) c) fun c => parts inner (bound' + 1) c
    unfold parts
    refine Foresees.ite _ (closing _) ?_
    refine Foresees.bindTaking (takes_part sound) (foresees_part foreseen _) fun p => ?_
    exact Foresees.bind (others ()) fun ps => Foresees.pure _

theorem foresees_arguments (count : Nat) :
    Foresees more count (fun c => arguments inner c.rest.length c)
      (fun c => arguments inner c.rest.length c) := by
  have last (count : Nat) (t : Tree) :
      Foresees more count (fun c => do let c ← demand ")" c; return ([t], c))
        (fun c => do let c ← demand ")" c; return ([t], c)) :=
    Foresees.demand ")" (Foresees.pure [t])
  refine Foresees.loop (ι := Unit) (f := fun bound _ => arguments inner bound) (fun _ c => ?_)
    (fun count bound bound' others _ => ?_) ()
  · have ends : Foresees more 0 (fun c => arguments inner 0 c) (fun c => arguments inner 0 c) := by
      unfold arguments
      refine Foresees.bind (foreseen _ _) fun t => ?_
      exact Foresees.ite "," (Foresees.error rfl) (last 0 t)
    exact ends.stays c
  · change Foresees more _ (fun c => arguments inner (bound + 1) c)
      fun c => arguments inner (bound' + 1) c
    unfold arguments
    refine Foresees.bindTaking (takes_inner sound _) (foreseen _ _) fun t => ?_
    refine Foresees.ite "," ?_ (last _ t)
    refine Foresees.mono (Foresees.next (Foresees.bind (others ()) fun ts => ?_)) (Nat.le_succ _)
    exact Foresees.pure _

/-- What an opening operator starts. -/
theorem foresees_opened (count : Nat) (start : Span) (rule : OpeningRule) :
    Foresees more count (opened limit inner start rule) (opened limit inner start rule) := by
  cases rule with
  | group =>
    refine Foresees.bind (foreseen _ _) fun t => ?_
    exact Foresees.demand _ (Foresees.node limit _ fun _ => rfl)
  | template =>
    refine Foresees.bind (foresees_parts sound foreseen _) fun ps => ?_
    exact Foresees.node limit _ fun _ => rfl
  | unary op => exact Foresees.bind (foreseen _ _) fun t => Foresees.node limit _ fun _ => rfl

theorem foresees_operand (count : Nat) :
    Foresees more count (operand d limit inner) (operand d limit inner) := by
  have behind {f : Step Tree} (foresees : Foresees more count f f) :
      Foresees more count (fun c => f c.next) (fun c => f c.next) :=
    foresees.next.mono (Nat.le_succ count)
  have invalid : Foresees more count
      (fun c => .error (c.failure fun t => .invalidToken t.text t.span))
      (fun c => .error (c.failure fun t => .invalidToken t.text t.span)) :=
    Foresees.failure (α := Tree) _ fun _ => rfl
  refine Foresees.head (operandAt d limit inner) (fun _ => rfl) (fun _ _ _ => rfl) fun t => ?_
  unfold operandAt
  split
  · exact behind (Foresees.pure _)
  · exact behind (Foresees.pure _)
  · split
    · exact behind (foresees_opened sound foreseen _ _ _)
    · exact invalid
  · exact invalid

/-- What an operator makes of the tree in front of it. -/
theorem foresees_followed (count : Nat) (left : Tree) (power : Power) (rule : FollowingRule) :
    Foresees more count (followed limit inner left power rule)
      (followed limit inner left power rule) := by
  cases rule with
  | binary op | assign op =>
    exact Foresees.bind (foreseen _ _) fun right => Foresees.node limit _ fun _ => rfl
  | step op => exact Foresees.node limit _ fun _ => rfl
  | access => exact Foresees.bind Foresees.identifier fun s => Foresees.node limit _ fun _ => rfl
  | lookup =>
    refine Foresees.bind (foreseen _ _) fun key => ?_
    exact Foresees.demand _ (Foresees.node limit _ fun _ => rfl)
  | call =>
    let tree (args : List Tree) (c : Cursor) : Tree :=
      .call (.over (left.span.merge c.last) (left :: args)) left args
    have made (args : List Tree) :
        Foresees more count (fun c => do let t ← limited limit (tree args c); return (t, c))
          (fun c => do let t ← limited limit (tree args c); return (t, c)) :=
      Foresees.node limit (tree args) fun _ => rfl
    exact Foresees.ite ")" ((made []).next.mono (Nat.le_succ count))
      (Foresees.bind (foresees_arguments sound foreseen count) made)
  | choice =>
    refine Foresees.bind (foreseen _ _) fun yes => Foresees.demand _ ?_
    exact Foresees.bind (foreseen _ _) fun no => Foresees.node limit _ fun _ => rfl

/-- The operators behind a tree. -/
theorem foresees_chain (count min : Nat) (left : Tree) :
    Foresees more count (fun c => chain d limit inner min c.rest.length left c)
      (fun c => chain d limit inner min c.rest.length left c) := by
  have stop (count : Nat) (left : Tree) :
      Foresees more count (fun c => .ok (left, c)) (fun c => .ok (left, c)) := Foresees.pure left
  refine Foresees.loop (f := fun bound left => chain d limit inner min bound left)
    (fun left c => ?_) (fun count bound bound' others left => ?_) left
  · have ends : Foresees more 0 (fun c => chain d limit inner min 0 left c)
        (fun c => chain d limit inner min 0 left c) := by
      unfold chain
      refine Foresees.follows (stop 0 left) fun power rule => ?_
      exact Foresees.choose _ (stop 0 left) (stop 0 left)
    exact ends.stays c
  · change Foresees more _ (fun c => chain d limit inner min (bound + 1) left c)
      fun c => chain d limit inner min (bound' + 1) left c
    unfold chain
    dsimp only
    refine Foresees.follows (stop _ left) fun power rule => ?_
    refine Foresees.choose _ (stop _ left) ?_
    exact (Foresees.bind (foresees_followed sound foreseen _ _ _ _) others).next

omit sound foreseen in
theorem foresees_expression (standard : d.Standard assigning) (room min count : Nat) :
    Foresees more count (expression d limit room min) (expression d limit room min) := by
  induction room generalizing min count with
  | zero => exact Foresees.error rfl
  | succ room inductionHypothesis =>
    have sound : Sound d assigning (expression d limit room) := sound_expression standard room
    exact Foresees.bind (foresees_operand sound inductionHypothesis _) fun left =>
      foresees_chain sound inductionHypothesis _ _ _

/-- The parts of a bare template. -/
theorem foresees_allParts (count : Nat) :
    Foresees more count (fun c => allParts inner c.rest.length c)
      (fun c => allParts inner c.rest.length c) := by
  refine Foresees.loop (ι := Unit) (f := fun bound _ => allParts inner bound) (fun _ c => ?_)
    (fun count bound bound' others _ => ?_) ()
  · unfold allParts
    split <;> exact List.suffix_refl c.rest
  · change Foresees more _ (fun c => allParts inner (bound + 1) c)
      fun c => allParts inner (bound' + 1) c
    unfold allParts
    refine Foresees.unlessEmpty [] ?_
    refine Foresees.bindTaking (takes_part sound) (foresees_part foreseen _) fun p => ?_
    exact Foresees.bind (others ()) fun ps => Foresees.pure _

end Rules

end Parser

end Formulae
