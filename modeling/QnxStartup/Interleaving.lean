import Mathlib.Data.List.Count

/-! Threads that share a state and take turns: each step is one atomic action of one
thread and has an event. -/

namespace QnxStartup

section

variable {ι σ ε : Type*} {step : ι → σ → Option (ε × σ)} {s₀ s : σ} {t : List ε}

/-- The events of a run from `s₀` in their order, and the state it has come to. -/
inductive Trace (step : ι → σ → Option (ε × σ)) (s₀ : σ) : List ε → σ → Prop
  | start : Trace step s₀ [] s₀
  | next {t : List ε} {s s' : σ} {i : ι} {e : ε} (run : Trace step s₀ t s)
      (h : step i s = some (e, s')) :
      Trace step s₀ (t ++ [e]) s'

theorem Trace.induct {P : List ε → σ → Prop} (run : Trace step s₀ t s) (h0 : P [] s₀)
    (hstep : ∀ t s i e s', P t s → step i s = some (e, s') → P (t ++ [e]) s') : P t s := by
  induction run with
  | start => exact h0
  | next _ h ih => exact hstep _ _ _ _ _ ih h

theorem Trace.invariant {P : σ → Prop} (run : Trace step s₀ t s) (h0 : P s₀)
    (hstep : ∀ s i e s', P s → step i s = some (e, s') → P s') : P s :=
  run.induct h0 fun _ _ _ _ _ => hstep _ _ _ _

theorem Trace.before {e : ε} {pre post : List ε} (run : Trace step s₀ (pre ++ e :: post) s) :
    ∃ s₁ i s₂, Trace step s₀ pre s₁ ∧ step i s₁ = some (e, s₂) := by
  generalize ht : pre ++ e :: post = t at run
  induction run generalizing post with
  | start => simp at ht
  | next run h ih =>
    rcases List.eq_nil_or_concat post with rfl | ⟨post', e', rfl⟩
    · obtain ⟨rfl, he⟩ := List.append_inj' ht rfl
      obtain rfl := List.singleton_inj.mp he
      exact ⟨_, _, _, run, h⟩
    · rw [List.concat_eq_append, ← List.cons_append, ← List.append_assoc] at ht
      exact ih (List.append_inj' ht rfl).1

/-- An event that sets its own mark, and only while the mark is not set, happens at most
once, and has happened exactly when the mark is set. -/
theorem Trace.count_eq [DecidableEq ε] {P : σ → Prop} {d : σ → Bool} {e : ε}
    (run : Trace step s₀ t s)
    (h0 : P s₀) (hstep : ∀ s i e' s', P s → step i s = some (e', s') →
      P s' ∧ (e' = e → d s = false ∧ d s' = true) ∧ (e' ≠ e → d s' = d s))
    (hdone : d s₀ = false) : t.count e = if d s then 1 else 0 := by
  refine (run.induct (P := fun t s => P s ∧ t.count e = if d s then 1 else 0)
    ⟨h0, by simp [hdone]⟩ ?_).2
  rintro t s i e' s' ⟨hP, hcount⟩ h
  obtain ⟨hP', heq, hne⟩ := hstep s i e' s' hP h
  refine ⟨hP', ?_⟩
  rw [List.count_append, List.count_singleton, hcount]
  by_cases he : e' = e
  · obtain ⟨h1, h2⟩ := heq he
    simp [he, h1, h2]
  · simp [he, hne he]

/-- The run that a schedule gives; a thread that cannot move is passed over. -/
def runSchedule (step : ι → σ → Option (ε × σ)) : List ι → List ε × σ → List ε × σ
  | [], r => r
  | i :: l, r => runSchedule step l ((step i r.2).elim r fun p => (r.1 ++ [p.1], p.2))

theorem Trace.runSchedule (run : Trace step s₀ t s) (l : List ι) :
    Trace step s₀ (QnxStartup.runSchedule step l (t, s)).1
      (QnxStartup.runSchedule step l (t, s)).2 := by
  induction l generalizing t s with
  | nil => exact run
  | cons i l ih =>
    rw [QnxStartup.runSchedule]
    cases h : step i s with
    | none => exact ih run
    | some p => exact ih (run.next h)

end

end QnxStartup
