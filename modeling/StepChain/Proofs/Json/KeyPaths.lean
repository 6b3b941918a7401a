import StepChain.Proofs.Json.Replay
/-!
# Overlays along paths of keys

A path of keys leads from a value to the one under the first key, from there to the one under the second, and so on
(`valueAt?`).  What is no object has nothing under any key, so a value ends there (`EndsAbove`).

What is laid over a value decides each path by itself.  Above the end of the upper value it holds the two values of that
path laid over one another, or the one there is (`valueAt?_overlayAt`), and beyond it nothing
(`valueAt?_overlayAt_of_endsAbove`).  So nothing of the base is lost but what the upper value replaces or ends above
(`overlay_pathwise`).
-/
namespace StepChain.Json

/-- The value under a key, which only an object has. -/
def child? (value : Json) (key : String) : Option Json := value.object?.bind (·.get? key)

/-- The value that a path of keys leads to. -/
def valueAt? : List String → Json → Option Json
  | [], value => some value
  | key :: path, value => (value.child? key).bind (valueAt? path)

/-- The path goes on below a value that is no object. -/
def EndsAbove (value : Json) (path : List String) : Prop :=
  ∃ above key below v, path = above ++ key :: below ∧ value.valueAt? above = some v ∧ v.isObject = false

theorem child?_of_not_object {value : Json} (h : value.isObject = false) (key : String) : value.child? key = none := by
  rw [child?, isObject_eq_false.1 h]
  rfl

/-! ### Where a value ends -/

theorem not_endsAbove_nil (value : Json) : ¬ value.EndsAbove [] := by
  rintro ⟨above, key, below, v, hpath, -⟩
  cases above <;> cases hpath

theorem endsAbove_cons {value : Json} {key : String} {path : List String} :
    value.EndsAbove (key :: path) ↔ value.isObject = false ∨ ∃ v, value.child? key = some v ∧ v.EndsAbove path := by
  constructor
  · rintro ⟨above, key', below, v, hpath, hvalue, hv⟩
    cases above with
    | nil =>
      obtain rfl := Option.some.inj hvalue
      exact .inl hv
    | cons first above =>
      obtain ⟨rfl, rfl⟩ := List.cons.inj hpath
      obtain ⟨child, hchild, hbelow⟩ := Option.bind_eq_some_iff.1 hvalue
      exact .inr ⟨child, hchild, above, key', below, v, rfl, hbelow, hv⟩
  · rintro (hvalue | ⟨child, hchild, above, key', below, v, rfl, hbelow, hv⟩)
    · exact ⟨[], key, path, value, rfl, rfl, hvalue⟩
    · exact ⟨key :: above, key', below, v, rfl, Option.bind_eq_some_iff.2 ⟨child, hchild, hbelow⟩, hv⟩

theorem valueAt?_of_endsAbove : ∀ {path : List String} {value : Json}, value.EndsAbove path →
    value.valueAt? path = none
  | [], value, h => absurd h value.not_endsAbove_nil
  | key :: path, value, h => by
    rw [valueAt?]
    rcases endsAbove_cons.1 h with hvalue | ⟨v, hchild, hbelow⟩
    · rw [child?_of_not_object hvalue]
      rfl
    · rw [hchild]
      exact valueAt?_of_endsAbove hbelow

/-! ### One key, then a path -/

/-- Under each key of an object that is laid over something lies its value, laid over what the key held. -/
theorem child?_overlayAt (base : Option Json) (upper : Object) (key : String) :
    (overlayAt base (.object upper)).child? key =
      match upper.get? key with
      | some v => some (overlayAt (base.bind (·.child? key)) v)
      | none => base.bind (·.child? key) := by
  have hbase : ((base.getD .null).object?.getD .nil).get? key = base.bind (·.child? key) := by
    cases base with
    | none => rfl
    | some b => cases b <;> rfl
  rw [overlayAt_eq, overlay_object_eq, ← hbase]
  exact get?_overlayMembers _ upper key

theorem overlayAt_of_not_object {upper : Json} (h : upper.isObject = false) (base : Option Json) :
    overlayAt base upper = upper := by
  rw [overlayAt_eq, overlay_of_not_object (isObject_eq_false.1 h)]

theorem valueAt?_overlayAt_of_endsAbove : ∀ {path : List String} {upper : Json}, upper.EndsAbove path →
    ∀ base : Option Json, (overlayAt base upper).valueAt? path = none
  | [], upper, h, _ => absurd h upper.not_endsAbove_nil
  | key :: path, upper, h, base => by
    cases hupper : upper.isObject with
    | false =>
      rw [overlayAt_of_not_object hupper]
      exact valueAt?_of_endsAbove h
    | true =>
      obtain ⟨v, hchild, hbelow⟩ := (endsAbove_cons.1 h).resolve_left (by rw [hupper]; exact Bool.noConfusion)
      cases upper with
      | object o =>
        have hget : o.get? key = some v := hchild
        rw [valueAt?, child?_overlayAt, hget]
        exact valueAt?_overlayAt_of_endsAbove hbelow _
      | _ => cases hupper

/-- **Each path by itself**: what the two values hold there is laid over one another. -/
theorem valueAt?_overlayAt : ∀ {path : List String} {upper : Json}, ¬ upper.EndsAbove path → ∀ base : Option Json,
    (overlayAt base upper).valueAt? path =
      match upper.valueAt? path with
      | some v => some (overlayAt (base.bind (valueAt? path)) v)
      | none => base.bind (valueAt? path)
  | [], upper, _, base => by
    have hbase : base.bind (valueAt? []) = base := Option.bind_fun_some base
    rw [hbase]
    rfl
  | key :: path, upper, h, base => by
    have hbind : base.bind (valueAt? (key :: path)) = (base.bind (·.child? key)).bind (valueAt? path) := by
      cases base <;> rfl
    cases upper with
    | object o =>
      rw [hbind, valueAt?, valueAt?, child?_overlayAt]
      cases hget : o.get? key with
      | none =>
        have hchild : (object o).child? key = none := hget
        rw [hchild]
        rfl
      | some v =>
        have hchild : (object o).child? key = some v := hget
        rw [hchild]
        exact valueAt?_overlayAt (fun hbelow => h (endsAbove_cons.2 (.inr ⟨v, hchild, hbelow⟩))) _
    | _ => exact absurd (endsAbove_cons.2 (.inl rfl)) h

/-! ### What is kept and what is lost -/

/-- What a value comes to at each path of keys when another is laid over it. -/
structure Pathwise (base upper result : Json) : Prop where
  taken : ∀ path v, upper.valueAt? path = some v →
    (v.isObject = false ∨ ∀ b, base.valueAt? path = some b → b.isObject = false) → result.valueAt? path = some v
  joined : ∀ path b u, base.valueAt? path = some (.object b) → upper.valueAt? path = some (.object u) →
    ∃ o, result.valueAt? path = some (.object o) ∧
      ∀ key, (o.get? key).isSome = ((b.get? key).isSome || (u.get? key).isSome)
  kept : ∀ path, upper.valueAt? path = none → ¬ upper.EndsAbove path → result.valueAt? path = base.valueAt? path
  ended : ∀ path, upper.EndsAbove path → result.valueAt? path = none

/-- **An overlay, path by path.**  A value of the upper side is there as it is, unless both sides have an object: those
are joined.  Where the upper side has nothing, the base is as it was, and only below the end of the upper side it is
gone.  So what the base had is lost only where the upper side has a value, or ends above it; and wherever the upper side
has a value there is one. -/
theorem overlay_pathwise (base upper : Json) :
    Pathwise base upper (base.overlay upper) ∧
    (∀ path b, base.valueAt? path = some b → (base.overlay upper).valueAt? path = some b ∨
      (∃ v, upper.valueAt? path = some v) ∨ upper.EndsAbove path) ∧
    ∀ path v, upper.valueAt? path = some v → ∃ r, (base.overlay upper).valueAt? path = some r := by
  have hends : ∀ path v, upper.valueAt? path = some v → ¬ upper.EndsAbove path := by
    intro path v hv h
    rw [valueAt?_of_endsAbove h] at hv
    cases hv
  have hboth : ∀ path v, upper.valueAt? path = some v →
      (base.overlay upper).valueAt? path = some (overlayAt (base.valueAt? path) v) := by
    intro path v hv
    have h := valueAt?_overlayAt (hends path v hv) (some base)
    rw [hv] at h
    exact h
  have hkept : ∀ path, upper.valueAt? path = none → ¬ upper.EndsAbove path →
      (base.overlay upper).valueAt? path = base.valueAt? path := by
    intro path hnone h
    have h := valueAt?_overlayAt h (some base)
    rw [hnone] at h
    exact h
  refine ⟨⟨?_, ?_, hkept, fun path h => valueAt?_overlayAt_of_endsAbove h (some base)⟩, ?_, ?_⟩
  · intro path v hv h
    rw [hboth path v hv]
    congr 1
    rcases h with hv | hbase
    · exact overlayAt_of_not_object hv _
    · cases hb : base.valueAt? path with
      | none => rfl
      | some b => exact overlay_on_not_object (isObject_eq_false.1 (hbase b hb)) v
  · intro path b u hb hu
    refine ⟨overlayMembers b u, ?_, fun key => ?_⟩
    · rw [hboth path _ hu, hb, overlayAt, overlay_object]
    · rw [get?_overlayMembers]
      cases u.get? key with
      | none => exact (Bool.or_false _).symm
      | some v => exact (Bool.or_true _).symm
  · intro path b hb
    by_cases hend : upper.EndsAbove path
    · exact .inr (.inr hend)
    · cases hv : upper.valueAt? path with
      | some v => exact .inr (.inl ⟨v, rfl⟩)
      | none => exact .inl ((hkept path hv hend).trans hb)
  · exact fun path v hv => ⟨_, hboth path v hv⟩

end StepChain.Json
