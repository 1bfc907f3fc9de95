import Formulae.Proofs.Evaluation.Outcome

/-!
Evaluations that end in the same way, up to the worlds from which they fail apart.
-/

namespace Formulae.Eval

variable {α β : Type}

def Fails (act : Eval α) (w : World) : Prop := ∃ e w', act w = .error e w'

theorem bind_of_ok {act : Eval α} {next : α → Eval β} {w w' : World} {a : α}
    (succeeds : act w = .ok a w') : (act >>= next) w = next a w' := by
  change EStateM.bind act next w = _
  rw [EStateM.bind, succeeds]

theorem bind_of_error {act : Eval α} {next : α → Eval β} {w w' : World} {e : EvalError}
    (fails : act w = .error e w') : (act >>= next) w = .error e w' := by
  change EStateM.bind act next w = _
  rw [EStateM.bind, fails]

theorem Fails.bind {act : Eval α} {next : α → Eval β} {w : World} (fails : Fails act w) :
    Fails (act >>= next) w := by
  obtain ⟨e, w', fails⟩ := fails
  exact ⟨e, w', bind_of_error fails⟩

theorem Fails.ne_ok {act : Eval α} {w w' : World} {a : α} (fails : Fails act w) :
    act w ≠ .ok a w' := by
  obtain ⟨e, v, fails⟩ := fails
  rw [fails]
  rintro ⟨⟩

theorem fails_of_ne_ok {act : Eval α} {w : World} (stuck : ∀ a w', act w ≠ .ok a w') :
    Fails act w := by
  cases reached : act w with
  | ok a w' => exact absurd reached (stuck a w')
  | error e w' => exact ⟨e, w', reached⟩

/-- Both fail, with different errors. -/
def FailsApart (x y : Eval α) (w : World) : Prop :=
  ∃ e v e' v', x w = .error e v ∧ y w = .error e' v' ∧ e ≠ e'

theorem FailsApart.bind {x y : Eval α} {f g : α → Eval β} {w : World} (apart : FailsApart x y w) :
    FailsApart (x >>= f) (y >>= g) w := by
  obtain ⟨e, v, e', v', fails, fails', differ⟩ := apart
  exact ⟨e, v, e', v', bind_of_error fails, bind_of_error fails', differ⟩

theorem FailsApart.bind_left {x y : Eval α} {f : α → Eval α} {w : World}
    (apart : FailsApart x y w) : FailsApart (x >>= f) y w := by
  obtain ⟨e, v, e', v', fails, fails', differ⟩ := apart
  exact ⟨e, v, e', v', bind_of_error fails, fails', differ⟩

def nowhere (_ : World) : Prop := False

/-- The worlds from which the first part comes to `P`, or succeeds and the next comes to `Q`. -/
def Through (act : Eval α) (P : World → Prop) (Q : α → World → Prop) (w : World) : Prop :=
  P w ∨ ∃ a w', act w = .ok a w' ∧ Q a w'

theorem through_iff_of_fails {act : Eval α} {P : World → Prop} {Q : α → World → Prop} {w : World}
    (fails : Fails act w) : Through act P Q w ↔ P w := by
  constructor
  · rintro (first | ⟨a, w', succeeds, _⟩)
    · exact first
    · exact absurd succeeds fails.ne_ok
  · exact .inl

theorem not_through {act : Eval α} {P : World → Prop} {Q : α → World → Prop}
    (first : ∀ w, ¬ P w) (second : ∀ a w, ¬ Q a w) (w : World) : ¬ Through act P Q w := by
  rintro (comes | ⟨a, w', _, comes⟩)
  · exact first w comes
  · exact second a w' comes

/-- From the worlds in `P` the two fail apart, and from all others they end in the same way. -/
def Alike (P : World → Prop) (x y : Eval α) : Prop :=
  ∀ w, P w ∧ FailsApart x y w ∨ ¬ P w ∧ x w = y w

namespace Alike

variable {P Q : World → Prop} {x y : Eval α} {f g : α → Eval β}

theorem refl (x : Eval α) : Alike nowhere x x := fun _ => .inr ⟨id, rfl⟩

theorem congr (alike : Alike P x y) (same : ∀ w, P w ↔ Q w) : Alike Q x y := by
  intro w
  rw [← same]
  exact alike w

theorem of_failsApart (all : ∀ w, P w) (apart : ∀ w, FailsApart x y w) : Alike P x y :=
  fun w => .inl ⟨all w, apart w⟩

theorem apart (alike : Alike P x y) {w : World} (comes : P w) : FailsApart x y w := by
  rcases alike w with ⟨_, apart⟩ | ⟨stays, _⟩
  · exact apart
  · exact absurd comes stays

theorem apply_eq (alike : Alike P x y) {w : World} (stays : ¬ P w) : x w = y w := by
  rcases alike w with ⟨comes, _⟩ | ⟨_, same⟩
  · exact absurd comes stays
  · exact same

theorem fails (alike : Alike P x y) {w : World} (fails : Fails x w) : Fails y w := by
  rcases alike w with ⟨_, _, _, e', v', _, fails', _⟩ | ⟨_, same⟩
  · exact ⟨e', v', fails'⟩
  · rwa [Fails, ← same]

theorem eq_ok_iff (alike : Alike P x y) {w w' : World} {a : α} :
    x w = .ok a w' ↔ y w = .ok a w' := by
  rcases alike w with ⟨_, e, v, e', v', fails, fails', _⟩ | ⟨_, same⟩
  · rw [fails, fails']
    simp
  · rw [same]

theorem bind {R : α → World → Prop} (first : Alike P x y)
    (second : ∀ a, (∃ w w', x w = .ok a w') → Alike (R a) (f a) (g a)) :
    Alike (Through x P R) (x >>= f) (y >>= g) := by
  intro w
  rcases first w with ⟨comes, apart⟩ | ⟨stays, same⟩
  · exact .inl ⟨.inl comes, apart.bind⟩
  · cases reached : x w with
    | error e w' =>
      refine .inr ⟨?_, ?_⟩
      · rw [through_iff_of_fails ⟨e, w', reached⟩]
        exact stays
      · rw [bind_of_error reached, bind_of_error (same.symm.trans reached)]
    | ok a w' =>
      have reached' := same.symm.trans reached
      rcases second a ⟨w, w', reached⟩ w' with ⟨comes, apart⟩ | ⟨staysNext, sameNext⟩
      · refine .inl ⟨.inr ⟨a, w', reached, comes⟩, ?_⟩
        rwa [FailsApart, bind_of_ok reached, bind_of_ok reached']
      · refine .inr ⟨?_, ?_⟩
        · rintro (comes | ⟨b, v, succeeds, comes⟩)
          · exact stays comes
          · cases reached.symm.trans succeeds
            exact staysNext comes
        · rw [bind_of_ok reached, bind_of_ok reached', sameNext]

/-- What follows both alike changes nothing. -/
theorem followed (first : Alike P x y) (next : α → Eval β) :
    Alike P (x >>= next) (y >>= next) := by
  refine (first.bind fun a _ => .refl (next a)).congr fun w => ?_
  constructor
  · rintro (comes | ⟨_, _, _, ⟨⟩⟩)
    exact comes
  · exact .inl

/-- Nothing follows a failure. -/
theorem bind_of_fails (first : Alike P x y) (fails : ∀ w, Fails x w) :
    Alike P (x >>= f) (y >>= g) := by
  refine (first.bind (R := fun _ => nowhere) fun a reached => ?_).congr fun w => ?_
  · obtain ⟨w, w', succeeds⟩ := reached
    exact absurd succeeds (fails w).ne_ok
  · exact through_iff_of_fails (fails w)

theorem bind_left_of_fails {x y : Eval α} {f : α → Eval α} (first : Alike P x y)
    (fails : ∀ w, Fails x w) : Alike P (x >>= f) y := by
  intro w
  rcases first w with ⟨comes, apart⟩ | ⟨stays, same⟩
  · exact .inl ⟨comes, apart.bind_left⟩
  · obtain ⟨e, w', failed⟩ := fails w
    rw [bind_of_error failed, ← same, failed]
    exact .inr ⟨stays, rfl⟩

/-- What comes after the value that is read may differ only if some value can be. -/
theorem update {target target' : String} {x y : Eval Value} {f g : Value → Eval Value}
    {p q : Value → Eval Attempt} {R S : Value → World → Prop} (reads : Alike P x y)
    (changes : ∀ v, Alike (R v) (f v) (g v))
    (stores : (∃ w, ¬ Fails x w) → ∀ v,
      Alike (S v) (Eval.store target p v) (Eval.store target' q v)) :
    Alike (Through x P fun old => Through (f old) (R old) S) (Eval.update target x f p)
      (Eval.update target' y g q) := by
  refine reads.bind fun old reached => (changes old).bind fun new _ => ?_
  refine (stores ?_ new).followed _
  obtain ⟨w, w', succeeds⟩ := reached
  exact ⟨w, fun fails => fails.ne_ok succeeds⟩

end Alike

end Formulae.Eval
