import StepChain.Step.Registry
/-!
# What a registry holds

In every registry that adding steps and aliases can make, an alias points to a known step and is not itself the name of
one (`Reachable.sound`).  An identifier leads to the step of the name it stands for (`nameOf?_of_find`), and a name
stands for itself unless it is an alias (`Sound.nameOf?_getD`).
-/
namespace StepChain.Registry

/-- The registries that are there at the start, and those that adding steps and aliases makes of them. -/
inductive Reachable : Registry → Prop where
  | empty : Reachable .empty
  | standard : Reachable .standard
  | addStep {r r' : Registry} {s : Step} (before : Reachable r) (added : r.addStep s = .ok r') : Reachable r'
  | addAlias {r r' : Registry} {name step : String} (before : Reachable r) (added : r.addAlias name step = .ok r') :
      Reachable r'

structure Sound (r : Registry) : Prop where
  known : ∀ id name, r.alias? id = some name → (r.step? name).isSome
  apart : ∀ id, (r.alias? id).isSome → r.step? id = none

theorem name_of_step? {r : Registry} {name : String} {s : Step} (h : r.step? name = some s) : s.name = name := by
  simpa using List.find?_some h

/-! ### Adding -/

variable {r r' : Registry}

theorem addStep_eq_ok {s : Step} : r.addStep s = .ok r' ↔
    r.step? s.name = none ∧ r.alias? s.name = none ∧ r' = { r with steps := r.steps ++ [s] } := by
  unfold addStep isTaken
  cases r.step? s.name <;> cases r.alias? s.name <;> simp [eq_comm]

theorem addAlias_eq_ok {name step : String} : r.addAlias name step = .ok r' ↔
    (r.step? step).isSome ∧ r.step? name = none ∧ r.alias? name = none ∧
      r' = { r with aliases := r.aliases ++ [(name, step)] } := by
  unfold addAlias isTaken
  cases r.step? step <;> cases r.step? name <;> cases r.alias? name <;> simp [eq_comm]

theorem step?_append (s : Step) (name : String) : step? { r with steps := r.steps ++ [s] } name =
    (r.step? name).or (if s.name = name then some s else none) := by
  rw [step?, List.find?_append, step?]
  by_cases h : s.name = name <;> simp [h]

theorem alias?_append (name step id : String) : alias? { r with aliases := r.aliases ++ [(name, step)] } id =
    (r.alias? id).or (if name = id then some step else none) := by
  rw [alias?, List.find?_append, alias?]
  by_cases h : name = id <;> cases r.aliases.find? (·.1 == id) <;> simp [h]

theorem Sound.addStep (h : r.Sound) {s : Step} (added : r.addStep s = .ok r') : r'.Sound := by
  obtain ⟨-, hfree, rfl⟩ := addStep_eq_ok.1 added
  constructor
  · intro id name hid
    have hknown := h.known id name hid
    rw [step?_append, Option.isSome_or, hknown, Bool.true_or]
  · intro id hid
    have hne : s.name ≠ id := fun heq => by
      have : (r.alias? s.name).isSome := heq ▸ hid
      rw [hfree] at this
      cases this
    rw [step?_append, h.apart id hid, if_neg hne]
    rfl

theorem Sound.addAlias (h : r.Sound) {name step : String} (added : r.addAlias name step = .ok r') : r'.Sound := by
  obtain ⟨hknown, hfree, -, rfl⟩ := addAlias_eq_ok.1 added
  constructor
  · intro id target hid
    rw [alias?_append] at hid
    rcases Option.or_eq_some_iff.1 hid with hold | ⟨-, hnew⟩
    · exact h.known id target hold
    · split at hnew
      · obtain rfl := Option.some.inj hnew
        exact hknown
      · cases hnew
  · intro id hid
    by_cases heq : name = id
    · subst heq
      exact hfree
    · rw [alias?_append, if_neg heq, Option.or_none] at hid
      exact h.apart id hid

theorem sound_of_no_aliases (steps : List Step) : Sound ⟨steps, []⟩ :=
  ⟨fun _ _ hid => (nomatch hid), fun _ hid => (nomatch hid)⟩

/-- **Every registry that can be made is sound.** -/
theorem Reachable.sound (h : Reachable r) : r.Sound := by
  induction h with
  | empty => exact sound_of_no_aliases []
  | standard =>
    have hsteps := sound_of_no_aliases [.concat, .uglify, .cssmin]
    exact hsteps.addAlias (show Registry.addAlias _ "uglifyjs" "uglify" = .ok .standard from rfl)
  | addStep _ added ih => exact ih.addStep added
  | addAlias _ added ih => exact ih.addAlias added

/-! ### Looking up -/

/-- **An identifier leads to the step of the name that it stands for.** -/
theorem nameOf?_of_find {id : String} {s : Step} (hs : r.find id = .ok s) : r.nameOf? id = some s.name := by
  unfold find at hs
  cases hname : r.nameOf? id with
  | none => rw [hname] at hs; cases hs
  | some name =>
    rw [hname, Option.bind_some] at hs
    cases hstep : r.step? name with
    | none => rw [hstep] at hs; cases hs
    | some t =>
      rw [hstep] at hs
      cases hs
      rw [name_of_step? hstep]

/-- A name that is no alias stands for itself, if for anything; an alias stands for another name. -/
theorem Sound.nameOf?_getD (h : r.Sound) (name : String) : (r.nameOf? name).getD name = name ↔ r.alias? name = none := by
  unfold nameOf?
  cases halias : r.alias? name with
  | none => by_cases hstep : (r.step? name).isSome <;> simp [hstep]
  | some target =>
    have hnone := h.apart name (by rw [halias]; rfl)
    have hne : target ≠ name := fun heq => by
      have hknown := h.known name target halias
      rw [heq, hnone] at hknown
      cases hknown
    simp [hnone, hne]

end StepChain.Registry
