/-!
# Runs of steps that can fail

Runs of a step function that can fail, with a condition on each step, evaluated in the state the
step starts from. What the steps keep holds in the state a run ends in (`FallibleRun.invariant`).

`ReturnsUnless` is what a computation returns when one failure is allowed, `ReturnsIf` what one
returns that fails only where a condition does not hold.
-/

section FallibleRun

variable {σ α β ε : Type}

theorem except_ok_bind (a : α) (f : α → Except ε β) : (Except.ok a >>= f) = f a := rfl

theorem except_bind_eq_ok {x : Except ε α} {f : α → Except ε β} {b : β} :
    (x >>= f) = .ok b ↔ ∃ a, x = .ok a ∧ f a = .ok b := by
  cases x with
  | error e =>
    constructor
    · intro h
      cases h
    · rintro ⟨a, ha, -⟩
      cases ha
  | ok a =>
    constructor
    · intro h
      exact ⟨a, rfl, h⟩
    · rintro ⟨a', ha, hb⟩
      cases ha
      exact hb

theorem except_map_eq_ok {x : Except ε α} {f : α → β} {b : β} :
    x.map f = .ok b ↔ ∃ a, x = .ok a ∧ f a = b := by
  cases x with
  | error e =>
    constructor
    · intro h
      cases h
    · rintro ⟨a, ha, -⟩
      cases ha
  | ok a =>
    constructor
    · intro h
      exact ⟨a, rfl, Except.ok.inj h⟩
    · rintro ⟨a', ha, hb⟩
      cases ha
      exact congrArg Except.ok hb

/-- What is returned has the property, unless the failure is the one that is allowed. -/
def ReturnsUnless (e : ε) (x : Except ε α) (P : α → Prop) : Prop :=
  x = .error e ∨ ∃ a, x = .ok a ∧ P a

section ReturnsUnless

variable {e : ε} {x : Except ε α} {P : α → Prop} {Q : β → Prop}

theorem returnsUnless_ok {a : α} (h : P a) : ReturnsUnless e (.ok a) P := .inr ⟨a, rfl, h⟩

theorem ReturnsUnless.bind (h : ReturnsUnless e x P) {f : α → Except ε β}
    (hf : ∀ a, P a → ReturnsUnless e (f a) Q) : ReturnsUnless e (x >>= f) Q := by
  rcases h with rfl | ⟨a, rfl, ha⟩
  · exact .inl rfl
  · exact hf a ha

theorem ReturnsUnless.mono {P' : α → Prop} (h : ReturnsUnless e x P) (himp : ∀ a, P a → P' a) :
    ReturnsUnless e x P' := by
  rcases h with herror | ⟨a, hok, ha⟩
  · exact .inl herror
  · exact .inr ⟨a, hok, himp a ha⟩

theorem ReturnsUnless.of_ok (h : ReturnsUnless e x P) {a : α} (hok : x = .ok a) : P a := by
  rcases h with herror | ⟨a', hok', ha⟩
  · rw [hok] at herror
    cases herror
  · rw [hok] at hok'
    cases hok'
    exact ha

end ReturnsUnless

/-- The run through the actions, from one state to another. -/
inductive FallibleRun (step : σ → α → Except ε σ) (guard : σ → α → Prop) :
    σ → List α → σ → Prop
  | nil (s : σ) : FallibleRun step guard s [] s
  | cons {s s' s'' : σ} {a : α} {acts : List α} (hguard : guard s a) (hstep : step s a = .ok s')
      (rest : FallibleRun step guard s' acts s'') : FallibleRun step guard s (a :: acts) s''

theorem FallibleRun.invariant {step : σ → α → Except ε σ} {guard : σ → α → Prop} (Inv : σ → Prop)
    (hstep : ∀ s a s', Inv s → guard s a → step s a = .ok s' → Inv s') {s s' : σ} {acts : List α}
    (h : FallibleRun step guard s acts s') (hs : Inv s) : Inv s' := by
  induction h with
  | nil => exact hs
  | cons hguard hok _ ih => exact ih (hstep _ _ _ hs hguard hok)

theorem FallibleRun.append {step : σ → α → Except ε σ} {guard : σ → α → Prop} {s s' s'' : σ}
    {acts acts' : List α} (h : FallibleRun step guard s acts s')
    (h' : FallibleRun step guard s' acts' s'') : FallibleRun step guard s (acts ++ acts') s'' := by
  induction h with
  | nil => exact h'
  | cons hguard hok _ ih => exact .cons hguard hok (ih h')

/-- A run does not fail where no step with the guard does. -/
theorem foldlM_invariant {step : σ → α → Except ε σ} {guard : α → Prop} (Inv : σ → Prop)
    (hstep : ∀ s a, Inv s → guard a → ∃ s', step s a = .ok s' ∧ Inv s') {s : σ} {acts : List α}
    (hs : Inv s) (hguard : ∀ a ∈ acts, guard a) :
    ∃ s', acts.foldlM step s = .ok s' ∧ Inv s' := by
  induction acts generalizing s with
  | nil => exact ⟨s, rfl, hs⟩
  | cons a acts ih =>
    obtain ⟨s', hok, hs'⟩ := hstep s a hs (hguard a List.mem_cons_self)
    obtain ⟨s'', hrest, hs''⟩ := ih hs' fun b hb => hguard b (List.mem_cons_of_mem a hb)
    refine ⟨s'', ?_, hs''⟩
    rw [List.foldlM_cons, hok]
    exact hrest

/-- An invariant that depends on the actions that have been taken. -/
theorem foldlM_prefix {step : σ → α → Except ε σ} (Inv : List α → σ → Prop) {s : σ}
    {acts : List α} (hs : Inv [] s) (hstep : ∀ taken a s, taken ++ [a] <+: acts → Inv taken s →
      ∃ s', step s a = .ok s' ∧ Inv (taken ++ [a]) s') :
    ∃ s', acts.foldlM step s = .ok s' ∧ Inv acts s' := by
  induction acts generalizing s Inv with
  | nil => exact ⟨s, rfl, hs⟩
  | cons a acts ih =>
    obtain ⟨s₁, hok, hs₁⟩ := hstep [] a s ⟨acts, rfl⟩ hs
    obtain ⟨s', hrest, hs'⟩ := ih (fun taken => Inv (a :: taken)) hs₁
      fun taken b s htaken => hstep (a :: taken) b s (List.cons_prefix_cons.mpr ⟨rfl, htaken⟩)
    refine ⟨s', ?_, hs'⟩
    rw [List.foldlM_cons, hok]
    exact hrest

/-- A run that does not fail takes each of its steps. -/
theorem step_of_foldlM {step : σ → α → Except ε σ} {s s' : σ} {acts : List α}
    (h : acts.foldlM step s = .ok s') {a : α} (ha : a ∈ acts) : ∃ s₁ s₂, step s₁ a = .ok s₂ := by
  induction acts generalizing s with
  | nil => cases ha
  | cons b acts ih =>
    rw [List.foldlM_cons, except_bind_eq_ok] at h
    obtain ⟨s₁, hb, hrest⟩ := h
    rcases List.mem_cons.mp ha with rfl | hrest'
    · exact ⟨s, s₁, hb⟩
    · exact ih hrest hrest'

/-- What a loop that does not fail collects. -/
theorem except_mapM_eq_ok {f : α → Except ε β} {l : List α} {r : List β} :
    l.mapM f = .ok r ↔ l.map f = r.map .ok := by
  induction l generalizing r with
  | nil =>
    rw [List.mapM_nil, List.map_nil, List.nil_eq, List.map_eq_nil_iff]
    exact ⟨fun h => (Except.ok.inj h).symm, fun h => congrArg Except.ok h.symm⟩
  | cons a l ih =>
    rw [List.mapM_cons, except_bind_eq_ok, List.map_cons]
    constructor
    · rintro ⟨b, hb, h⟩
      obtain ⟨bs, hbs, h⟩ := except_bind_eq_ok.mp h
      cases h
      rw [hb, ih.mp hbs, List.map_cons]
    · intro h
      cases r with
      | nil => cases h
      | cons b bs =>
        obtain ⟨hb, hbs⟩ := List.cons.inj h
        exact ⟨b, hb, except_bind_eq_ok.mpr ⟨bs, ih.mpr hbs, rfl⟩⟩

theorem except_mapM_ok {f : α → Except ε β} {l : List α} (h : ∀ a ∈ l, ∃ b, f a = .ok b) :
    ∃ r, l.mapM f = .ok r := by
  induction l with
  | nil => exact ⟨[], rfl⟩
  | cons a l ih =>
    obtain ⟨b, hb⟩ := h a List.mem_cons_self
    obtain ⟨r, hr⟩ := ih fun a' ha' => h a' (List.mem_cons_of_mem a ha')
    refine ⟨b :: r, ?_⟩
    rw [List.mapM_cons, hb, hr]
    rfl

theorem except_mapM_of_eq {f : α → Except ε β} {g : α → β} {l : List α}
    (h : ∀ a ∈ l, f a = .ok (g a)) : l.mapM f = .ok (l.map g) := by
  rw [except_mapM_eq_ok, List.map_map]
  exact List.map_congr_left h

theorem ok_of_mapM {f : α → Except ε β} {l : List α} {r : List β} (h : l.mapM f = .ok r) {a : α}
    (ha : a ∈ l) : ∃ b, f a = .ok b := by
  have hmem : f a ∈ r.map Except.ok := except_mapM_eq_ok.mp h ▸ List.mem_map_of_mem ha
  obtain ⟨b, -, hb⟩ := List.mem_map.mp hmem
  exact ⟨b, hb.symm⟩

/-- What a computation returns that fails only where a condition does not hold. -/
def ReturnsIf (C : Prop) (x : Except ε α) (P : α → Prop) : Prop :=
  (∃ a, x = .ok a ∧ P a) ∨ (∃ e, x = .error e) ∧ ¬C

section ReturnsIf

variable {C : Prop} {x : Except ε α} {P : α → Prop} {Q : β → Prop}

theorem returnsIf_ok {a : α} (h : P a) : ReturnsIf C (.ok a : Except ε α) P := .inl ⟨a, rfl, h⟩

section

variable (h : ReturnsIf C x P)
include h

theorem ReturnsIf.bind {f : α → Except ε β}
    (hf : ∀ a, P a → ReturnsIf C (f a) Q) : ReturnsIf C (x >>= f) Q := by
  rcases h with ⟨a, rfl, ha⟩ | ⟨⟨e, rfl⟩, hC⟩
  · exact hf a ha
  · exact .inr ⟨⟨e, rfl⟩, hC⟩

theorem ReturnsIf.mono {P' : α → Prop} (himp : ∀ a, P a → P' a) :
    ReturnsIf C x P' := by
  rcases h with ⟨a, hok, ha⟩ | hno
  · exact .inl ⟨a, hok, himp a ha⟩
  · exact .inr hno

theorem ReturnsIf.ok (hC : C) : ∃ a, x = .ok a ∧ P a := by
  rcases h with hok | ⟨-, hno⟩
  · exact hok
  · exact absurd hC hno

theorem ReturnsIf.of_ok {a : α} (hok : x = .ok a) : P a := by
  rcases h with ⟨a', hok', ha⟩ | ⟨⟨e, he⟩, -⟩
  · exact Except.ok.inj (hok'.symm.trans hok) ▸ ha
  · rw [hok] at he
    cases he

end

end ReturnsIf

end FallibleRun
