import Formulae.Proofs.Grammar.Exactness
import Formulae.Proofs.Grammar.Lookahead
import Formulae.Proofs.Grammar.Nesting
import Formulae.Proofs.Grammar.Start

/-!
Where tokens are rejected.

With the limit on nesting lifted, the parser reports the first token that no accepted tokens
have at its place, behind the same tokens. It reports the end if the tokens are the start of
accepted ones.
-/

namespace Formulae

open Formulae.Parser

namespace Parser

/-- What a parser says of tokens that it rejects. -/
structure RejectsEarly (parse : List Token → Except ParseError Tree) (ts : List Token) : Prop where
  /-- An error is about a token, or there are too few. -/
  reason : ∀ e, parse ts = .error e → e = .unexpectedEnd ∨ ∃ name, e.token? = some name
  /-- Up to the token of an error the tokens can be completed, and with it they cannot. -/
  token : ∀ e name, parse ts = .error e → e.token? = some name →
    ∃ k t, ts[k]? = some t ∧ t.name = name ∧ (∃ us u, parse (ts.take k ++ us) = .ok u) ∧
      ∀ us u, parse (ts.take (k + 1) ++ us) ≠ .ok u
  /-- Where the end is unexpected, the tokens are not accepted, but others with them are. -/
  ends : parse ts = .error .unexpectedEnd →
    (∀ u, parse ts ≠ .ok u) ∧ ∃ us u, parse (ts ++ us) = .ok u

/-- A parser whose errors at tokens stay with more tokens behind, are about the last token that
came, and that reports the end only of what can be completed. -/
theorem rejectsEarly {parse : List Token → Except ParseError Tree}
    (free : ∀ ts limit, parse ts ≠ .error (.nestingTooDeep limit))
    (blank : ∀ e, parse [] = .error e → e.token? = none)
    (stays : ∀ ts us e, parse ts = .error e → e.token? ≠ none → parse (ts ++ us) = .error e)
    (last : ∀ ts t e name, (∀ e, parse ts = .error e → e.token? = none) →
      parse (ts ++ [t]) = .error e → e.token? = some name → t.name = name)
    (completes : ∀ ts, parse ts = .error .unexpectedEnd → ∃ us u, parse (ts ++ us) = .ok u)
    (ts : List Token) : RejectsEarly parse ts := by
  have reason (ts : List Token) (e : ParseError) (rejects : parse ts = .error e) :
      e = .unexpectedEnd ∨ ∃ name, e.token? = some name := by
    cases e with
    | unexpectedToken _ actual span => exact .inr ⟨_, rfl⟩
    | invalidToken token span => exact .inr ⟨_, rfl⟩
    | unexpectedEnd => exact .inl rfl
    | nestingTooDeep limit => exact absurd rejects (free ts limit)
  refine ⟨reason ts, ?_, fun rejects => ⟨fun u => by rw [rejects]; nofun, completes ts rejects⟩⟩
  -- The first start of the tokens that is rejected at a token ends in that token.
  induction ts using List.reverseRecOn with
  | nil =>
    intro e name rejects about
    rw [blank e rejects] at about
    cases about
  | append_singleton ts t inductionHypothesis =>
    intro e name rejects about
    by_cases early : ∃ e, parse ts = .error e ∧ e.token? ≠ none
    · obtain ⟨e', rejects', about'⟩ := early
      obtain rfl : e' = e := Except.error.inj ((stays ts [t] e' rejects' about').symm.trans rejects)
      obtain ⟨k, u, found, named, viable, dead⟩ := inductionHypothesis e' name rejects' about
      have inside : k < ts.length := (List.getElem?_eq_some_iff.mp found).1
      refine ⟨k, u, ?_, named, ?_, ?_⟩
      · rwa [List.getElem?_append_left inside]
      · rwa [List.take_append_of_le_length (Nat.le_of_lt inside)]
      · rwa [List.take_append_of_le_length inside]
    · have late (e : ParseError) (rejects : parse ts = .error e) : e.token? = none := by
        by_contra about
        exact early ⟨e, rejects, about⟩
      refine ⟨ts.length, t, by simp, last ts t e name late rejects about, ?_, fun us u => ?_⟩
      · rw [List.take_left']
        · cases accepts : parse ts with
          | ok u => exact ⟨[], u, by simpa using accepts⟩
          | error e =>
            rcases reason ts e accepts with rfl | ⟨name, about⟩
            · exact completes ts accepts
            · rw [late e accepts] at about
              cases about
        · rfl
      · rw [List.take_of_length_le (by simp), stays _ us e rejects (by rw [about]; nofun)]
        nofun

/-- A first parse and one with more tokens at the end. What the first one rejects at a token is
rejected by the second, and otherwise the second one rejects the new tokens only. -/
theorem Outlook.verdict {more : List Token} {x y : Except ParseError (Tree × Cursor)}
    (outlook : Outlook more x y) :
    (∀ e, x.map Prod.fst = .error e → e.token? ≠ none → y.map Prod.fst = .error e) ∧
      ∀ e name, (∀ e, x.map Prod.fst = .error e → e.token? = none) → y.map Prod.fst = .error e →
        e.token? = some name → ∃ t ∈ more, t.name = name := by
  cases outlook with
  | same a left => exact ⟨nofun, nofun⟩
  | error about =>
    exact ⟨fun e rejects _ => rejects, fun _ _ late _ _ => absurd (late _ rfl) about⟩
  | past ended stays =>
    constructor
    · rintro e rejects about
      obtain ⟨name, about⟩ := Option.ne_none_iff_exists'.mp about
      cases x with
      | ok a => cases rejects
      | error e' =>
        cases rejects
        obtain ⟨_, none, _⟩ := ended name about
        cases none
    · rintro e name _ rejects about
      cases y with
      | ok a => cases rejects
      | error e' =>
        cases rejects
        exact stays name about

section Entry

variable (d : Dialect) (limit : Nat)

/-- A whole expression, which uses up the tokens. -/
def whole : Step Tree := fun c => do
  let (t, c) ← expression d limit limit Power.loosest c
  finish d c
  return (t, ⟨c.last, []⟩)

/-- A bare template, which starts at `first`. -/
def bare (first : Span) : Step Tree := fun c => do
  let (ps, c) ← allParts (expression d limit limit) c.rest.length c
  let t ← limited limit (.template (.over (first.merge c.last) (Part.embeds ps)) ps)
  return (t, c)

/-- The place where a bare template starts. -/
def Cursor.first (c : Cursor) : Span := (c.rest.head?.map Token.span).getD (.point c.last.stop)

theorem parseWithin_eq_whole (ts : List Token) :
    Tree.parseWithin d (limit + 1) ts = (whole d (limit + 1) (.start ts)).map Prod.fst := by
  unfold Tree.parseWithin whole
  generalize Cursor.start ts = c
  obtain ⟨s, _ | ⟨t, rest⟩⟩ := c
  · rfl
  · change (expression d _ _ _ _ >>= _) = Except.map _ (expression d _ _ _ _ >>= _)
    cases expression d (limit + 1) (limit + 1) Power.loosest ⟨s, t :: rest⟩ with
    | error e => rfl
    | ok read =>
      obtain ⟨u, c⟩ := read
      change (finish d c >>= _) = Except.map _ (finish d c >>= _)
      cases finish d c <;> rfl

theorem parseTemplateWithin_eq_bare (ts : List Token) :
    Tree.parseTemplateWithin d limit ts =
      (bare d limit (Cursor.start ts).first (.start ts)).map Prod.fst := by
  unfold Tree.parseTemplateWithin bare Cursor.first
  dsimp only
  cases allParts (expression d limit limit) (Cursor.start ts).rest.length (.start ts) with
  | error e => rfl
  | ok read =>
    obtain ⟨ps, c⟩ := read
    change limited _ _ = Except.map _ (limited _ _ >>= _)
    unfold limited
    split <;> rfl

variable {assigning : Bool} {d}

/-- Behind an expression there are sentinels only, or the first other token is reported. -/
theorem finish_cases (d : Dialect) (s : Span) (ts : List Token) :
    (finish d ⟨s, ts⟩ = .ok () ∧ ∀ more, finish d ⟨s, ts ++ more⟩ = finish d ⟨s, more⟩) ∨
      ∃ e, ∃ t ∈ ts, e.token? = some t.name ∧ ∀ more, finish d ⟨s, ts ++ more⟩ = .error e := by
  cases front : ts.dropWhile fun t => t.kind = .sentinel with
  | nil =>
    refine .inl ⟨?_, fun more => ?_⟩
    · unfold finish
      rw [front]
    · unfold finish
      dsimp only
      rw [List.dropWhile_append, front]
      rfl
  | cons t rest =>
    have behind : t :: rest <:+ ts := front ▸ List.dropWhile_suffix _
    have inside : t ∈ ts := behind.subset (.head _)
    have reports (more : List Token) : finish d ⟨s, ts ++ more⟩ =
        if t.kind = .operator ∧ ¬ d.following.contains t.text then
          .error (.invalidToken t.text t.span)
        else .error (.unexpectedToken "end of expression" t.text t.span) := by
      unfold finish
      dsimp only
      rw [List.dropWhile_append, front]
      rfl
    by_cases unknown : t.kind = .operator ∧ ¬ d.following.contains t.text
    · exact .inr ⟨_, t, inside, rfl, fun more => (reports more).trans (if_pos unknown)⟩
    · exact .inr ⟨_, t, inside, rfl, fun more => (reports more).trans (if_neg unknown)⟩

theorem finish_ne_end (d : Dialect) (c : Cursor) : finish d c ≠ .error .unexpectedEnd := by
  unfold finish
  split
  · nofun
  · split <;> nofun

theorem foresees_finish {more : List Token} (count : Nat) (t : Tree) :
    Foresees more count (fun c => do finish d c; return (t, ⟨c.last, []⟩))
      (fun c => do finish d c; return (t, ⟨c.last, []⟩)) := by
  have stays (s : Span) (ts : List Token) :
      Stays ts (do finish d ⟨s, ts⟩; return (t, (⟨s, []⟩ : Cursor))) := by
    rcases finish_cases d s ts with ⟨ends, _⟩ | ⟨e, u, inside, about, reports⟩
    · rw [ends]
      exact List.nil_suffix
    · rw [← List.append_nil ts, reports]
      intro name named
      exact ⟨u, by simpa using inside, Option.some.inj (about.symm.trans named)⟩
  refine ⟨fun c => stays c.last c.rest, fun c => stays c.last c.rest, fun c _ _ => ?_⟩
  obtain ⟨s, ts⟩ := c
  unfold Cursor.append
  rcases finish_cases d s ts with ⟨ends, goes⟩ | ⟨e, u, _, about, reports⟩
  · rw [ends, goes]
    exact .past List.nil_suffix (stays s more)
  · have alone := reports []
    rw [List.append_nil] at alone
    rw [alone, reports]
    exact .error (by rw [about]; nofun)

theorem foresees_whole (standard : d.Standard assigning) {more : List Token} (count : Nat) :
    Foresees more count (whole d limit) (whole d limit) :=
  Foresees.bind (foresees_expression standard _ _ _) (foresees_finish count)

theorem foresees_bare (standard : d.Standard assigning) {more : List Token} (count : Nat)
    (first : Span) : Foresees more count (bare d limit first) (bare d limit first) :=
  Foresees.bind (foresees_allParts (sound_expression standard _) (foresees_expression standard _) _)
    fun _ => Foresees.node limit _ fun _ => rfl

/-- With the last tokens taken away, a run ends where they started or is the same. -/
theorem outlook_whole (standard : d.Standard assigning) (s : Span) (ts more : List Token) :
    Outlook more (whole d limit ⟨s, ts⟩) (whole d limit ⟨s, ts ++ more⟩) := by
  have foresees (count : Nat) : Foresees more count (whole d limit) (whole d limit) :=
    foresees_whole limit standard count
  cases ts with
  | nil => exact .past ((foresees 0).stays ⟨s, []⟩) ((foresees 0).stays ⟨s, more⟩)
  | cons t ts => exact (foresees _).outlook ⟨s, t :: ts⟩ nofun (Nat.le_refl _)

theorem outlook_bare (standard : d.Standard assigning) (s : Span) (ts more : List Token) :
    Outlook more (bare d limit (Cursor.first ⟨s, ts⟩) ⟨s, ts⟩)
      (bare d limit (Cursor.first ⟨s, ts ++ more⟩) ⟨s, ts ++ more⟩) := by
  have foresees (count : Nat) (first : Span) :
      Foresees more count (bare d limit first) (bare d limit first) :=
    foresees_bare limit standard count first
  cases ts with
  | nil => exact .past ((foresees 0 _).stays ⟨s, []⟩) ((foresees 0 _).stays ⟨s, more⟩)
  | cons t ts => exact (foresees _ _).outlook ⟨s, t :: ts⟩ nofun (Nat.le_refl _)

end Entry

end Parser

variable {assigning : Bool} {d : Dialect} {limit : Nat}

theorem Parser.Unhindered.ne_tooDeep {α : Type} {Q : α → Prop} {x : Except ParseError α}
    (unhindered : Unhindered Q x) (limit : Nat) : x ≠ .error (.nestingTooDeep limit) := by
  rintro rfl
  exact unhindered limit rfl

namespace Tree

theorem parseWithin_eq_parseFreely {ts : List Token}
    (enough : (Token.significant ts).length < limit) :
    parseWithin d limit ts = parseFreely d ts := by
  rcases Lockstep.parseWithin d (Nat.succ_le_of_lt enough) ts with tooDeep | same
  · have free := unhindered_parseWithin (d := d) (Nat.lt_succ_self (Token.significant ts).length)
    rw [tooDeep] at free
    exact absurd rfl (free _)
  · exact same.symm

theorem parseTemplateWithin_eq_parseTemplateFreely {ts : List Token}
    (enough : (Token.significant ts).length < limit) :
    parseTemplateWithin d limit ts = parseTemplateFreely d ts := by
  rcases Lockstep.parseTemplateWithin d (Nat.succ_le_of_lt enough) ts with tooDeep | same
  · have free :=
      unhindered_parseTemplateWithin (d := d) (Nat.lt_succ_self (Token.significant ts).length)
    exact absurd tooDeep (free.ne_tooDeep _)
  · exact same.symm

/-- A derivation of the tokens, on whatever limit. -/
theorem parseFreely_of_derivation (standard : d.Standard assigning) {ts : List Token}
    (k : Derivation assigning .assignment) (derived : Token.significant ts = k.tokens) :
    parseFreely d ts = .ok (k.tree d) := by
  let limit := max (k.tree d).depth ((Token.significant ts).length + 1)
  have enough : (Token.significant ts).length < limit :=
    Nat.lt_of_lt_of_le (Nat.lt_succ_self _) (Nat.le_max_right ..)
  rw [← parseWithin_eq_parseFreely enough]
  exact k.parseWithin standard (Nat.le_max_left ..) (by rw [derived, List.append_nil])
    (by simp)

end Tree

/-- The inside of a template is read as a bare template. -/
theorem Fragments.allParts (standard : d.Standard assigning) (limit : Nat)
    (fragments : Fragments assigning) :
    ∀ bound s, (∀ t ∈ Part.embeds (fragments.parts d), t.depth ≤ limit) →
      fragments.tokens.length ≤ bound →
      ∃ last, Parser.allParts (expression d limit limit) bound ⟨s, fragments.tokens⟩ =
        .ok (fragments.parts d, ⟨last, []⟩) := by
  cases fragments with
  | nil =>
    intro bound s _ _
    refine ⟨s, ?_⟩
    unfold Parser.allParts
    rfl
  | text t isText rest =>
    intro bound s shallow enough
    obtain _ | bound := bound
    · simp at enough
    obtain ⟨last, reads⟩ :=
      rest.allParts standard limit bound t.span shallow (by simpa using enough)
    refine ⟨last, ?_⟩
    unfold Parser.allParts
    simp only [tokens, parts, List.isEmpty, Bool.false_eq_true, if_false, part, isText, Cursor.next,
      bind, Except.bind, reads]
    rfl
  | embed o isOpen inner c isClose rest =>
    intro bound s shallow enough
    simp only [tokens, List.length_cons, List.length_append] at enough
    obtain _ | bound := bound
    · omega
    have reads : inner.ReadAt d (expression d limit limit) Power.loosest :=
      (inner.continues standard).readAt (by decide) (by decide)
        (shallow _ (by simp [parts, Part.embeds])) (Nat.le_refl limit)
    have closes : Closed d Power.loosest (c :: rest.tokens) :=
      closed_of_symbol standard isClose (fun rule => (symbol_ne_closing rule).2.2.1) _
    obtain ⟨last, others⟩ := rest.allParts standard limit bound c.span
      (fun t member => shallow t (by simp [parts, Part.embeds] at member ⊢; exact .inr member))
      (by omega)
    refine ⟨last, ?_⟩
    obtain ⟨kind, text⟩ := Token.isOperator_iff.mp isOpen
    unfold Parser.allParts
    simp only [tokens, parts, List.isEmpty, Bool.false_eq_true, if_false, part, kind, text, if_true,
      Cursor.next, bind, Except.bind, reads _ _ closes, demand_eq_ok isClose]
    simp only [pure, Except.pure, others]

namespace Tree

theorem exists_parseTemplateFreely (standard : d.Standard assigning) {ts : List Token}
    (fragments : Fragments assigning) (derived : Token.significant ts = fragments.tokens) :
    ∃ t, parseTemplateFreely d ts = .ok t := by
  let height := greatest ((Part.embeds (fragments.parts d)).map depth)
  let limit := max (height + 1) ((Token.significant ts).length + 1)
  have deep : height + 1 ≤ limit := Nat.le_max_left ..
  have shallow : ∀ t ∈ Part.embeds (fragments.parts d), t.depth ≤ limit := fun t member =>
    greatest_le_iff.mp (Nat.le_of_succ_le deep) _ (List.mem_map_of_mem member)
  have enough : (Token.significant ts).length < limit :=
    Nat.lt_of_lt_of_le (Nat.lt_succ_self _) (Nat.le_max_right ..)
  obtain ⟨last, reads⟩ := fragments.allParts standard limit
    (Token.significant ts).length ⟨0, 0⟩ shallow (by rw [derived])
  rw [← derived] at reads
  rw [← parseTemplateWithin_eq_parseTemplateFreely enough]
  refine ⟨_, bind_eq_ok_iff.mpr ⟨_, reads, limited_eq_ok ?_⟩⟩
  change (Mark.over _ _).depth ≤ limit
  rw [depth_over, Nat.add_comm]
  exact deep

/-- A parser that agrees with its limited readings as soon as the limit exceeds the tokens. -/
theorem verdict_of_outlook (free : List Token → Except ParseError Tree)
    (step : Nat → List Token → Except ParseError (Tree × Cursor))
    (agrees : ∀ count ts, (Token.significant ts).length ≤ count →
      free ts = (step count (Token.significant ts)).map Prod.fst)
    (outlook : ∀ count ts more, Outlook more (step count ts) (step count (ts ++ more)))
    (ts us : List Token) :
    (∀ e, free ts = .error e → e.token? ≠ none → free (ts ++ us) = .error e) ∧
      ∀ e name, (∀ e, free ts = .error e → e.token? = none) → free (ts ++ us) = .error e →
        e.token? = some name → ∃ t ∈ us, t.name = name := by
  have both : Token.significant (ts ++ us) = Token.significant ts ++ Token.significant us :=
    List.filter_append ..
  let count := (Token.significant (ts ++ us)).length
  have fewer : (Token.significant ts).length ≤ count := by
    have lengths := congrArg List.length both
    rw [List.length_append] at lengths
    omega
  obtain ⟨kept, fresh⟩ :=
    (outlook count (Token.significant ts) (Token.significant us)).verdict
  rw [← both, ← agrees count ts fewer, ← agrees count (ts ++ us) (Nat.le_refl _)] at kept fresh
  refine ⟨kept, fun e name late rejects about => ?_⟩
  obtain ⟨t, inside, named⟩ := fresh e name late rejects about
  exact ⟨t, (Token.mem_significant.mp inside).1, named⟩

theorem rejectsEarly_of_outlook {free : List Token → Except ParseError Tree}
    (step : Nat → List Token → Except ParseError (Tree × Cursor))
    (agrees : ∀ count ts, (Token.significant ts).length ≤ count →
      free ts = (step count (Token.significant ts)).map Prod.fst)
    (outlook : ∀ count ts more, Outlook more (step count ts) (step count (ts ++ more)))
    (shallow : ∀ ts limit, free ts ≠ .error (.nestingTooDeep limit))
    (blank : ∀ e, free [] = .error e → e.token? = none)
    (completes : ∀ ts, free ts = .error .unexpectedEnd → ∃ us u, free (ts ++ us) = .ok u)
    (ts : List Token) : RejectsEarly free ts := by
  have verdict := verdict_of_outlook free step agrees outlook
  refine rejectsEarly shallow blank (fun ts us => (verdict ts us).1)
    (fun ts t e name late rejects about => ?_) completes ts
  simpa using (verdict ts [t]).2 e name late rejects about

theorem significant_completed {ts others : List Token}
    (meant : ∀ t ∈ others, t.kind.isIgnorable = false) :
    Token.significant (ts ++ others) = Token.significant ts ++ others := by
  have kept : Token.significant others = others := List.filter_eq_self.mpr (by simpa using meant)
  calc
    Token.significant (ts ++ others) = Token.significant ts ++ Token.significant others :=
      List.filter_append ..
    _ = Token.significant ts ++ others := by rw [kept]

theorem completes_parseFreely (standard : d.Standard assigning) (ts : List Token)
    (ends : parseFreely d ts = .error .unexpectedEnd) :
    ∃ us u, parseFreely d (ts ++ us) = .ok u := by
  rw [parseFreely, parseWithin_eq_whole] at ends
  cases read : whole d ((Token.significant ts).length + 1) (.start ts) with
  | ok result =>
    rw [read] at ends
    cases ends
  | error e =>
    rw [read] at ends
    cases ends
    rcases bind_eq_error_iff.mp read with ends | ⟨⟨t, c⟩, _, ends⟩
    · obtain ⟨k, others, tokens, meant⟩ := viable_expression standard _ _ _ ends
      have derived := (significant_completed meant).trans tokens.symm
      exact ⟨others, _, parseFreely_of_derivation standard k derived⟩
    · rcases bind_eq_error_iff.mp ends with ends | ⟨_, _, ends⟩
      · exact absurd ends (finish_ne_end d c)
      · cases ends

theorem completes_parseTemplateFreely (standard : d.Standard assigning) (ts : List Token)
    (ends : parseTemplateFreely d ts = .error .unexpectedEnd) :
    ∃ us u, parseTemplateFreely d (ts ++ us) = .ok u := by
  rcases bind_eq_error_iff.mp ends with ends | ⟨⟨ps, c⟩, _, ends⟩
  · obtain ⟨fragments, others, tokens, meant⟩ := viable_allParts (sound_expression standard _)
      (viable_expression standard _) ends
    have derived := (significant_completed meant).trans tokens.symm
    exact ⟨others, exists_parseTemplateFreely standard fragments derived⟩
  · change limited _ _ = _ at ends
    unfold limited at ends
    split at ends <;> cases ends

theorem rejectsEarly_parseFreely (standard : d.Standard assigning) (ts : List Token) :
    RejectsEarly (parseFreely d) ts := by
  refine rejectsEarly_of_outlook (fun count ts => whole d (count + 1) ⟨⟨0, 0⟩, ts⟩)
    (fun count ts few => ?_) (fun count ts more => outlook_whole _ standard _ ts more)
    (fun ts limit => ?_) (fun e ends => ?_) (completes_parseFreely standard) ts
  · rw [← parseWithin_eq_parseFreely (Nat.lt_succ_of_le few)]
    exact parseWithin_eq_whole d count ts
  · have free := unhindered_parseWithin (d := d) (Nat.lt_succ_self (Token.significant ts).length)
    exact free.ne_tooDeep limit
  · cases ends
    rfl

theorem rejectsEarly_parseTemplateFreely (standard : d.Standard assigning) (ts : List Token) :
    RejectsEarly (parseTemplateFreely d) ts := by
  refine rejectsEarly_of_outlook
    (fun count ts => bare d (count + 1) (Cursor.first ⟨⟨0, 0⟩, ts⟩) ⟨⟨0, 0⟩, ts⟩)
    (fun count ts few => ?_) (fun count ts more => outlook_bare _ standard _ ts more)
    (fun ts limit => ?_) (fun e rejects => ?_) (completes_parseTemplateFreely standard) ts
  · rw [← parseTemplateWithin_eq_parseTemplateFreely (Nat.lt_succ_of_le few)]
    exact parseTemplateWithin_eq_bare d (count + 1) ts
  · have free :=
      unhindered_parseTemplateWithin (d := d) (Nat.lt_succ_self (Token.significant ts).length)
    exact free.ne_tooDeep limit
  · -- No tokens are the body of an empty template.
    have derived : Token.significant [] = (.nil : Fragments assigning).tokens := rfl
    obtain ⟨t, accepts⟩ := exists_parseTemplateFreely standard .nil derived
    rw [accepts] at rejects
    cases rejects

/-- Every standard parser rejects tokens early, whole expressions and bare templates alike: an
error is about the first token with which no accepted tokens start, and the end is unexpected
only where more tokens can make an expression of them. -/
theorem rejects_early (names : Vocabulary) (flavor : Flavor) (ts : List Token) :
    let d := (Presets.ofVocabulary names).get flavor
    RejectsEarly (parseFreely d) ts ∧ RejectsEarly (parseTemplateFreely d) ts := by
  obtain ⟨_, standard⟩ := Presets.exists_standard names flavor
  exact ⟨rejectsEarly_parseFreely standard ts, rejectsEarly_parseTemplateFreely standard ts⟩

-- Arguments have no trailing comma: `f(a,` can be completed, and `f(a,)` cannot.
example : parseFreely (.plain {}) [⟨.identifier, ⟨0, 1⟩, "f", none⟩, ⟨.operator, ⟨1, 2⟩, "(", none⟩,
    ⟨.identifier, ⟨2, 3⟩, "a", none⟩, ⟨.operator, ⟨3, 4⟩, ",", none⟩,
    ⟨.operator, ⟨4, 5⟩, ")", none⟩] = .error (.invalidToken ")" ⟨4, 5⟩) := by rfl

end Tree

end Formulae
