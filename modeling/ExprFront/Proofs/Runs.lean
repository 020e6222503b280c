import ExprFront.Proofs.Reading

/-!
# Runs of a parse

A parse is a step function that is fed tokens. `Ends` says that a parse reads some tokens and
is done in front of the next one, and `Shifts` that it reads them and goes on. A run from a
lookahead succeeds exactly by an end, and fails exactly by a refusal after some shifts.
-/

namespace ExprFront
set_option autoImplicit false

section Steps
variable {σ α : Type} {step : σ → Token → Step σ α}

/-! ## Shifts -/

/-- The parse reads the tokens on its way from the first state to the second. -/
def Shifts (step : σ → Token → Step σ α) : σ → List Token → σ → Prop
  | s, [], s' => s = s'
  | s, t :: ts, s' => ∃ r, step s t = .shift r ∧ Shifts step r ts s'

theorem Shifts.refl (s : σ) : Shifts step s [] s := rfl

theorem Shifts.single {s s' : σ} {t : Token} (h : step s t = .shift s') :
    Shifts step s [t] s' := ⟨s', h, rfl⟩

theorem Shifts.cons {s r s' : σ} {t : Token} {ts : List Token} (h : step s t = .shift r)
    (hr : Shifts step r ts s') : Shifts step s (t :: ts) s' := ⟨r, h, hr⟩

theorem Shifts.trans {s r s' : σ} {ts us : List Token} (h : Shifts step s ts r)
    (h' : Shifts step r us s') : Shifts step s (ts ++ us) s' := by
  induction ts generalizing s with
  | nil =>
    have e : s = r := h
    subst e
    exact h'
  | cons t ts ih =>
    obtain ⟨q, hq, hr⟩ := h
    exact ⟨q, hq, ih hr⟩

/-! ## Ends -/

/-- A parse that takes its first step by `f` reads the tokens and is done in front of `next`. -/
def Ends (step : σ → Token → Step σ α) (f : Token → Step σ α) : List Token → Token → α → Prop
  | [], next, a => f next = .done a
  | t :: ts, next, a => ∃ s, f t = .shift s ∧ Ends step (step s) ts next a

theorem Ends.congr {f g : Token → Step σ α} {ts : List Token} {next : Token} {a : α}
    (h : f (ts.headD next) = g (ts.headD next)) :
    Ends step f ts next a ↔ Ends step g ts next a := by
  cases ts with
  | nil => exact (congrArg (· = Step.done a) h).to_iff
  | cons t ts =>
    have h : f t = g t := h
    simp only [Ends, h]

theorem Shifts.ends {s s' : σ} {ts us : List Token} {next : Token} {a : α}
    (h : Shifts step s ts s') (h' : Ends step (step s') us next a) :
    Ends step (step s) (ts ++ us) next a := by
  induction ts generalizing s with
  | nil =>
    have e : s = s' := h
    subst e
    exact h'
  | cons t ts ih =>
    obtain ⟨r, hr, hs⟩ := h
    exact ⟨r, hr, ih hs⟩

theorem ends_iff {s : σ} {ts : List Token} {next : Token} {a : α} :
    Ends step (step s) ts next a ↔ ∃ s', Shifts step s ts s' ∧ step s' next = .done a := by
  constructor
  · intro h
    induction ts generalizing s with
    | nil => exact ⟨s, rfl, h⟩
    | cons t ts ih =>
      obtain ⟨r, hr, hs⟩ := h
      obtain ⟨s', h₁, h₂⟩ := ih hs
      exact ⟨s', ⟨r, hr, h₁⟩, h₂⟩
  · rintro ⟨s', hs, hd⟩
    have hnil : Ends step (step s') [] next a := hd
    have h := hs.ends hnil
    rwa [List.append_nil] at h

/-! ## The end of the input -/

/-- The parse never reads the end of the input. -/
def LeavesEnd (step : σ → Token → Step σ α) : Prop :=
  ∀ s s' t, step s t = .shift s' → t.isEnd = false

end Steps

/-! ## Runs from a lookahead -/

namespace Lookahead
variable {σ α : Type} {step : σ → Token → Step σ α}

theorem run_of_done {l : Lookahead} {s : σ} {a : α} (h : step s l.token = .done a) :
    l.run step s = (.ok a, l) := by
  rw [run, h]

theorem run_of_refuse {l : Lookahead} {s : σ} {c : Refusal} (h : step s l.token = .refuse c) :
    l.run step s = (.error c, l) := by
  rw [run, h]

theorem run_of_shift {l : Lookahead} {s s' : σ} (h : step s l.token = .shift s')
    (he : l.token.isEnd = false) : l.run step s = l.advance.run step s' := by
  rw [run, h]
  simp only [he, Bool.false_eq_true, ↓reduceDIte]

theorem run_of_shifts {l m : Lookahead} {ts : List Token} {s s' : σ} (hr : l.Reads ts m)
    (h : Shifts step s ts s') : l.run step s = m.run step s' := by
  induction ts generalizing l s with
  | nil =>
    have e : l = m := hr
    have e' : s = s' := h
    rw [e, e']
  | cons t ts ih =>
    obtain ⟨ht, he, hr⟩ := hr
    obtain ⟨r, hs, h⟩ := h
    rw [run_of_shift (by rw [ht]; exact hs) (by rw [ht]; exact he)]
    exact ih hr h

/-- A run succeeds exactly if the parse ends in front of the token at which it stops. -/
theorem run_eq_ok_iff {l m : Lookahead} {s : σ} {a : α} :
    l.run step s = (.ok a, m) ↔ ∃ ts, l.Reads ts m ∧ Ends step (step s) ts m.token a := by
  constructor
  · intro h
    fun_induction run step l s with
    | case1 l s b hd =>
      obtain ⟨rfl, rfl⟩ : b = a ∧ l = m := by simpa using h
      exact ⟨[], rfl, hd⟩
    | case2 => simp at h
    | case3 => simp at h
    | case4 l s s' hs he ih =>
      obtain ⟨ts, hr, hd⟩ := ih h
      exact ⟨l.token :: ts, ⟨rfl, by simpa using he, hr⟩, s', hs, hd⟩
  · rintro ⟨ts, hr, hd⟩
    obtain ⟨s', hs, hd⟩ := ends_iff.mp hd
    rw [run_of_shifts hr hs, run_of_done hd]

/-- A run fails exactly if the parse refuses the token at which it stops. -/
theorem run_eq_error_iff (hend : LeavesEnd step) {l m : Lookahead} {s : σ} {c : Refusal} :
    l.run step s = (.error c, m) ↔
      ∃ ts s', l.Reads ts m ∧ Shifts step s ts s' ∧ step s' m.token = .refuse c := by
  constructor
  · intro h
    fun_induction run step l s with
    | case1 => simp at h
    | case2 l s d hd =>
      obtain ⟨rfl, rfl⟩ : d = c ∧ l = m := by simpa using h
      exact ⟨[], s, rfl, rfl, hd⟩
    | case3 l s s' hs he => exact absurd (hend s s' _ hs) (by simp [he])
    | case4 l s s' hs he ih =>
      obtain ⟨ts, r, hr, hsh, hd⟩ := ih h
      exact ⟨l.token :: ts, r, ⟨rfl, by simpa using he, hr⟩, ⟨s', hs, hsh⟩, hd⟩
  · rintro ⟨ts, s', hr, hs, hd⟩
    rw [run_of_shifts hr hs, run_of_refuse hd]

/-- Two parses that take the same steps run alike. The invariant is kept by the steps, and what is
asked of a token holds of the end and of all that is upcoming. -/
theorem run_congr {step' : σ → Token → Step σ α} {Good : σ → Prop} {Known : Token → Prop}
    (hstep : ∀ s t, Good s → Known t → step' s t = step s t)
    (hkeep : ∀ s t s', Good s → Known t → step s t = .shift s' → Good s')
    (hend : ∀ t : Token, t.isEnd = true → Known t) {l : Lookahead} {s : σ} (hs : Good s)
    (hl : ∀ t ∈ l.upcoming, Known t) : l.run step' s = l.run step s := by
  have htoken : ∀ l : Lookahead, (∀ t ∈ l.upcoming, Known t) → Known l.token := by
    intro l hl
    cases he : l.token.isEnd with
    | true => exact hend _ he
    | false =>
      rw [upcoming_of_not_isEnd he] at hl
      exact hl _ List.mem_cons_self
  fun_induction run step l s with
  | case1 l s a hd => exact run_of_done ((hstep s _ hs (htoken l hl)).trans hd)
  | case2 l s c hd => exact run_of_refuse ((hstep s _ hs (htoken l hl)).trans hd)
  | case3 l s s' hd he =>
    rw [run, hstep s _ hs (htoken l hl), hd]
    simp only [he, ↓reduceDIte]
  | case4 l s s' hd he ih =>
    have he : l.token.isEnd = false := by simpa using he
    rw [run_of_shift ((hstep s _ hs (htoken l hl)).trans hd) he]
    have hgood := hkeep s _ s' hs (htoken l hl) hd
    rw [upcoming_of_not_isEnd he] at hl
    exact ih hgood fun t ht => hl t (List.mem_cons_of_mem _ ht)

end Lookahead

end ExprFront
