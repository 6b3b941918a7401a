import StepChain.Proofs.Registry.Integrity
/-!
# Registries over time

A registry is asked again and again to add a step or an alias, and refuses what would take a name in use or point
nowhere.  Whatever it is asked, its tables fit together and all ways to look an identifier up agree (`Consistent`), and
what an identifier once stands for it stands for ever after (`Extends.find`).
-/
namespace StepChain.Registry

/-- What a registry can be asked: to add a step, or another name for one. -/
inductive Request where
  | addStep (s : Step)
  | addAlias (name step : String)

def answer (r : Registry) : Request → Except ConfigFault Registry
  | .addStep s => r.addStep s
  | .addAlias name step => r.addAlias name step

def serve (q : Request) : ExceptT ConfigFault (StateM Registry) Unit := do
  let r ← get
  let r' ← ExceptT.mk (pure (r.answer q))
  set r'

/-- The registry after requests one after another, granted or refused. -/
def after (r : Registry) (requests : List Request) : Registry :=
  requests.foldl (fun r q => ((serve q).run.run r).2) r

theorem run_serve (r : Registry) (q : Request) : (serve q).run.run r =
    match r.answer q with
    | .ok r' => (.ok (), r')
    | .error e => (.error e, r) := by
  change (do set (← ExceptT.mk (pure (r.answer q))) : ExceptT ConfigFault (StateM Registry) Unit).run.run r = _
  cases r.answer q <;> rfl

/-! ### Looking up -/

variable {r r' : Registry}

theorem nameOf?_of_step? {name : String} (h : (r.step? name).isSome) : r.nameOf? name = some name := by
  rw [nameOf?, if_pos h]

theorem nameOf?_of_alias? {id name : String} (hstep : r.step? id = none) (h : r.alias? id = some name) :
    r.nameOf? id = some name := by
  rw [nameOf?, hstep, h]
  rfl

theorem nameOf?_eq_some {id name : String} (h : r.nameOf? id = some name) :
    (id = name ∧ (r.step? id).isSome) ∨ (r.step? id = none ∧ r.alias? id = some name) := by
  unfold nameOf? at h
  cases hstep : r.step? id with
  | some s =>
    rw [hstep] at h
    exact .inl ⟨Option.some.inj h, rfl⟩
  | none =>
    rw [hstep] at h
    exact .inr ⟨rfl, h⟩

theorem find_eq_ok {id : String} {s : Step} :
    r.find id = .ok s ↔ ∃ name, r.nameOf? id = some name ∧ r.step? name = some s := by
  unfold find
  cases hname : r.nameOf? id with
  | none => simp
  | some name => cases hstep : r.step? name <;> simp [hstep]

theorem Sound.isSome_step? (h : r.Sound) {id name : String} (hname : r.nameOf? id = some name) :
    (r.step? name).isSome := by
  rcases nameOf?_eq_some hname with ⟨rfl, hstep⟩ | ⟨-, halias⟩
  · exact hstep
  · exact h.known id name halias

/-! ### What is kept -/

/-- All that `r` can look up, `r'` looks up alike. -/
structure Extends (r r' : Registry) : Prop where
  step : ∀ name s, r.step? name = some s → r'.step? name = some s
  name : ∀ id name, r.nameOf? id = some name → r'.nameOf? id = some name

namespace Extends

theorem refl (r : Registry) : r.Extends r := ⟨fun _ _ h => h, fun _ _ h => h⟩

theorem trans {r'' : Registry} (h : r.Extends r') (h' : r'.Extends r'') : r.Extends r'' :=
  ⟨fun name s hs => h'.step name s (h.step name s hs), fun id name hid => h'.name id name (h.name id name hid)⟩

theorem addStep {s : Step} (added : r.addStep s = .ok r') : r.Extends r' := by
  obtain ⟨-, hfree, rfl⟩ := addStep_eq_ok.1 added
  have hstep : ∀ name t, r.step? name = some t → step? { r with steps := r.steps ++ [s] } name = some t := by
    intro name t ht
    rw [step?_append, ht, Option.some_or]
  refine ⟨hstep, fun id name hid => ?_⟩
  rcases nameOf?_eq_some hid with ⟨rfl, hknown⟩ | ⟨hnone, halias⟩
  · obtain ⟨t, ht⟩ := Option.isSome_iff_exists.1 hknown
    exact nameOf?_of_step? (by rw [hstep id t ht]; rfl)
  · -- the new step does not take over the alias, whose name was in use
    have hne : s.name ≠ id := fun heq => by
      rw [heq, halias] at hfree
      cases hfree
    exact nameOf?_of_alias? (by rw [step?_append, hnone, if_neg hne]; rfl) halias

theorem addAlias {name step : String} (added : r.addAlias name step = .ok r') : r.Extends r' := by
  obtain ⟨-, -, -, rfl⟩ := addAlias_eq_ok.1 added
  refine ⟨fun _ _ h => h, fun id target hid => ?_⟩
  rcases nameOf?_eq_some hid with ⟨rfl, hknown⟩ | ⟨hnone, halias⟩
  · exact nameOf?_of_step? hknown
  · exact nameOf?_of_alias? hnone (by rw [alias?_append, halias, Option.some_or])

theorem find (h : r.Extends r') {id : String} {s : Step} (hs : r.find id = .ok s) : r'.find id = .ok s := by
  obtain ⟨name, hname, hstep⟩ := find_eq_ok.1 hs
  exact find_eq_ok.2 ⟨name, h.name id name hname, h.step name s hstep⟩

end Extends

def Keyed (r : Registry) : Prop := ∀ s ∈ r.steps, r.step? s.name = some s

theorem Keyed.addStep (h : r.Keyed) {s : Step} (added : r.addStep s = .ok r') : r'.Keyed := by
  obtain ⟨hfree, -, rfl⟩ := addStep_eq_ok.1 added
  intro t ht
  rw [step?_append]
  rcases List.mem_append.1 ht with hold | hnew
  · rw [h t hold, Option.some_or]
  · rw [List.mem_singleton.1 hnew, hfree, if_pos rfl, Option.none_or]

theorem Keyed.addAlias (h : r.Keyed) {name step : String} (added : r.addAlias name step = .ok r') : r'.Keyed := by
  obtain ⟨-, -, -, rfl⟩ := addAlias_eq_ok.1 added
  exact h

theorem keyed_standard : Registry.standard.Keyed := by
  intro s hs
  simp only [standard, List.mem_cons, List.not_mem_nil, or_false] at hs
  rcases hs with rfl | rfl | rfl <;> rfl

theorem Reachable.keyed (h : r.Reachable) : r.Keyed := by
  induction h with
  | empty => exact fun s hs => nomatch hs
  | standard => exact keyed_standard
  | addStep _ added ih => exact ih.addStep added
  | addAlias _ added ih => exact ih.addAlias added

/-! ### Whole histories -/

theorem Reachable.serve (h : r.Reachable) (q : Request) : ((serve q).run.run r).2.Reachable := by
  rw [run_serve]
  cases hq : r.answer q with
  | error e => exact h
  | ok r' =>
    cases q with
    | addStep s => exact h.addStep hq
    | addAlias name step => exact h.addAlias hq

theorem Reachable.after : ∀ {r : Registry}, r.Reachable → ∀ requests, (r.after requests).Reachable
  | _, h, [] => h
  | _, h, q :: requests => (h.serve q).after requests

theorem extends_serve (r : Registry) (q : Request) : r.Extends ((serve q).run.run r).2 := by
  rw [run_serve]
  cases hq : r.answer q with
  | error e => exact .refl r
  | ok r' =>
    cases q with
    | addStep s => exact .addStep hq
    | addAlias name step => exact .addAlias hq

theorem extends_after : ∀ (r : Registry) (requests : List Request), r.Extends (r.after requests)
  | r, [] => .refl r
  | r, q :: requests => (r.extends_serve q).trans (extends_after _ requests)

/-- The tables of a registry fit together, and all ways to look an identifier up agree. -/
structure Consistent (r : Registry) : Prop where
  apart : ∀ id, ¬ ((r.step? id).isSome ∧ (r.alias? id).isSome)
  known : ∀ id name, r.alias? id = some name → (r.step? name).isSome
  stored : ∀ name s, r.step? name = some s ↔ s ∈ r.steps ∧ s.name = name
  knows_iff_find : ∀ id, r.knows id = true ↔ ∃ s, r.find id = .ok s
  knows_iff_nameOf? : ∀ id, r.knows id = true ↔ ∃ name, r.nameOf? id = some name
  found : ∀ id name, r.nameOf? id = some name → (∃ s, r.find id = .ok s ∧ s.name = name) ∧ r.nameOf? name = some name

theorem Sound.found (h : r.Sound) {id name : String} (hname : r.nameOf? id = some name) :
    (∃ s, r.find id = .ok s ∧ s.name = name) ∧ r.nameOf? name = some name := by
  have hknown := h.isSome_step? hname
  obtain ⟨s, hs⟩ := Option.isSome_iff_exists.1 hknown
  exact ⟨⟨s, find_eq_ok.2 ⟨name, hname, hs⟩, name_of_step? hs⟩, nameOf?_of_step? hknown⟩

theorem Reachable.consistent (h : r.Reachable) : r.Consistent where
  apart := by
    rintro id ⟨hstep, halias⟩
    rw [h.sound.apart id halias] at hstep
    cases hstep
  known := h.sound.known
  stored := by
    intro name s
    constructor
    · exact fun hs => ⟨List.mem_of_find?_eq_some hs, name_of_step? hs⟩
    · rintro ⟨hmem, rfl⟩
      exact h.keyed s hmem
  knows_iff_find := by
    intro id
    rw [knows, Option.isSome_iff_exists]
    constructor
    · rintro ⟨name, hname⟩
      obtain ⟨⟨s, hs, -⟩, -⟩ := h.sound.found hname
      exact ⟨s, hs⟩
    · rintro ⟨s, hs⟩
      exact ⟨s.name, nameOf?_of_find hs⟩
  knows_iff_nameOf? := fun id => Option.isSome_iff_exists
  found := fun id name hname => h.sound.found hname

/-- **A registry keeps its integrity for ever.**  Whatever requests have been made of one of the registries that are
there at the start, its tables fit together.  A request that fails changes nothing, and an identifier that leads to a
step leads to it after all later requests. -/
theorem after_integrity {start : Registry} (hstart : start = .empty ∨ start = .standard) (requests : List Request) :
    (start.after requests).Consistent ∧
    (∀ q e, ((serve q).run.run (start.after requests)).1 = .error e →
      ((serve q).run.run (start.after requests)).2 = start.after requests) ∧
    ∀ id s, (start.after requests).find id = .ok s →
      ∀ later, (start.after (requests ++ later)).find id = .ok s := by
  have hreach : start.Reachable := by
    rcases hstart with rfl | rfl
    · exact .empty
    · exact .standard
  refine ⟨(hreach.after requests).consistent, ?_, ?_⟩
  · intro q e he
    rw [run_serve] at he ⊢
    cases hq : (start.after requests).answer q with
    | ok r' =>
      rw [hq] at he
      cases he
    | error _ => rfl
  · intro id s hs later
    have hafter : start.after (requests ++ later) = (start.after requests).after later := by
      rw [after, List.foldl_append]
      rfl
    rw [hafter]
    exact (extends_after _ later).find hs

/-- A step and an alias of it are added, between requests that take a name in use or point nowhere. -/
def disputed : List Request :=
  [.addStep (.standard "uglifyjs" .merged), .addStep (.standard "mark" .perSource), .addAlias "m" "marker",
    .addAlias "m" "mark", .addAlias "mark" "concat"]

/-- The alias leads to the step, cannot be pointed elsewhere and outlives a request for a step of its name. -/
theorem after_integrity_disputed : (standard.after disputed).Consistent ∧
    (standard.after disputed).find "m" = .ok (.standard "mark" .perSource) ∧
    ((serve (.addAlias "m" "concat")).run.run (standard.after disputed)).1 = .error (.taken "m") ∧
    ((serve (.addAlias "m" "concat")).run.run (standard.after disputed)).2 = standard.after disputed ∧
    (standard.after (disputed ++ [.addStep (.standard "m" .merged), .addStep (.standard "n" .merged)])).find "m" =
      .ok (.standard "mark" .perSource) := by
  obtain ⟨hconsistent, hrefused, hkept⟩ := after_integrity (.inr rfl) disputed
  have hfound : (standard.after disputed).find "m" = .ok (.standard "mark" .perSource) := by rfl
  have htaken : ((serve (.addAlias "m" "concat")).run.run (standard.after disputed)).1 = .error (.taken "m") := by rfl
  exact ⟨hconsistent, hfound, htaken, hrefused _ _ htaken, hkept "m" _ hfound _⟩

end StepChain.Registry
