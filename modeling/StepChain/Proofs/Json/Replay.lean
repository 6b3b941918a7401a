import StepChain.Json.Overlay
/-!
# Layers laid twice

Layers that have been laid over a value change nothing when all of them are laid over it again in the same order
(`foldl_overlay_twice`).  No law of single layers gives this, since a layer may replace an object and a later one fill
it again.  Either some layer is no object, and nothing from before it is left; or all are objects, and each key holds
the layers of that key laid over what it held (`get?_layeredMembers`).  So a whole list of layers may be replayed
(`layers_replayed`).
-/
namespace StepChain.Json

open Members (get?_cons get?_nil)

/-- What a key holds after layers are laid over it one by one; with none it holds what it held. -/
def layeredAt (base : Option Json) (layers : List Json) : Option Json :=
  layers.foldl (fun b v => some (overlayAt b v)) base

def layeredMembers (base : Object) (layers : List Object) : Object :=
  layers.foldl (fun b layer => overlayMembers b layer) base

/-! ### Single layers -/

theorem isObject_eq_false {value : Json} : value.isObject = false ↔ value.object? = none := by
  rw [isObject, Option.isSome_eq_false_iff, Option.isNone_iff_eq_none]

theorem overlay_of_not_object {upper : Json} (h : upper.object? = none) (base : Json) : base.overlay upper = upper := by
  cases upper with
  | object o => cases h
  | _ => simp [overlay]

theorem overlayMembers_nil (upper : Object) : overlayMembers .nil upper = upper := by
  apply Members.ext
  intro key
  rw [get?_overlayMembers, get?_nil]
  cases upper.get? key <;> rfl

/-- An object is laid over the members of the base, and a base that is no object has none. -/
theorem overlay_object_eq (base : Json) (upper : Object) :
    base.overlay (.object upper) = .object (overlayMembers (base.object?.getD .nil) upper) := by
  cases base with
  | object o => exact overlay_object o upper
  | _ => simp only [overlay, object?, Option.getD_none, overlayMembers_nil]

/-- What is no object leaves nothing below a layer. -/
theorem overlay_on_not_object {base : Json} (h : base.object? = none) (upper : Json) : base.overlay upper = upper := by
  cases upper with
  | object o =>
    rw [overlay_object_eq, h]
    exact congrArg object (overlayMembers_nil o)
  | _ => simp [overlay]

theorem overlay_null (upper : Json) : overlay .null upper = upper := overlay_on_not_object rfl upper

theorem overlayAt_eq (base : Option Json) (upper : Json) : overlayAt base upper = (base.getD .null).overlay upper := by
  cases base with
  | none => exact (overlay_null upper).symm
  | some b => rfl

/-! ### Key by key -/

theorem layeredAt_some (layers : List Json) :
    ∀ base : Json, layeredAt (some base) layers = some (layers.foldl overlay base) := by
  induction layers with
  | nil => exact fun _ => rfl
  | cons layer layers ih => exact fun base => ih (base.overlay layer)

theorem layeredAt_eq {layers : List Json} (h : layers ≠ []) (base : Option Json) :
    layeredAt base layers = some (layers.foldl overlay (base.getD .null)) := by
  cases layers with
  | nil => exact absurd rfl h
  | cons layer layers =>
    rw [List.foldl_cons, ← overlayAt_eq]
    exact layeredAt_some layers _

theorem get?_layeredMembers (key : String) : ∀ (layers : List Object) (base : Object),
    (layeredMembers base layers).get? key = layeredAt (base.get? key) (layers.filterMap fun layer => layer.get? key)
  | [], _ => rfl
  | layer :: layers, base => by
    have ih := get?_layeredMembers key layers (overlayMembers base layer)
    rw [get?_overlayMembers] at ih
    rw [List.filterMap_cons]
    cases h : layer.get? key with
    | none =>
      rw [h] at ih
      exact ih
    | some v =>
      rw [h] at ih
      exact ih

theorem foldl_overlay_objects : ∀ {layers : List Object}, layers ≠ [] → ∀ base : Json,
    (layers.map object).foldl overlay base = .object (layeredMembers (base.object?.getD .nil) layers)
  | [layer], _, base => overlay_object_eq base layer
  | layer :: next :: layers, _, base => by
    have hne : next :: layers ≠ [] := List.cons_ne_nil next layers
    have ih := foldl_overlay_objects hne (base.overlay (.object layer))
    rw [overlay_object_eq] at ih
    rw [List.map_cons, List.foldl_cons, overlay_object_eq]
    exact ih

/-! ### Laying again -/

/-- Of a list of layers that are not all objects, the last part counts alone, whatever lies below. -/
theorem exists_object_map_or_reset (layers : List Json) :
    (∃ objects : List Object, layers = objects.map object) ∨
      ∃ top, ∀ base : Json, layers.foldl overlay base = top := by
  induction layers with
  | nil => exact .inl ⟨[], rfl⟩
  | cons layer layers ih =>
    rcases ih with ⟨objects, rfl⟩ | ⟨top, htop⟩
    · cases layer with
      | object o => exact .inl ⟨o :: objects, rfl⟩
      | _ => exact .inr ⟨_, fun base => by rw [List.foldl_cons, overlay_of_not_object rfl]⟩
    · exact .inr ⟨top, fun base => htop _⟩

theorem sizeOf_lt_of_get? : {low : Option String} → (ms : Members low) → {key : String} → {v : Json} →
    ms.get? key = some v → sizeOf v < sizeOf ms
  | _, .nil, _, _, h => by simp at h
  | _, .cons k hk w rest, key, v, h => by
    rw [get?_cons] at h
    rw [Members.cons.sizeOf_spec]
    split at h
    · obtain rfl := Option.some.inj h
      omega
    · have := sizeOf_lt_of_get? rest h
      omega

theorem layeredAt_twice_of {layers : List Json}
    (h : ∀ base, layers.foldl overlay (layers.foldl overlay base) = layers.foldl overlay base) (base : Option Json) :
    layeredAt (layeredAt base layers) layers = layeredAt base layers := by
  by_cases hne : layers = []
  · subst hne
    rfl
  · rw [layeredAt_eq hne base, layeredAt_some, h]

theorem foldl_overlay_twice_of_size (n : Nat) : ∀ layers : List Json, (∀ layer ∈ layers, sizeOf layer < n) →
    ∀ base, layers.foldl overlay (layers.foldl overlay base) = layers.foldl overlay base := by
  -- on a bound for the sizes of the layers, since the layers of one key are members of those here
  induction n with
  | zero =>
    intro layers hsize base
    obtain rfl : layers = [] := List.eq_nil_iff_forall_not_mem.2 fun layer hmem => Nat.not_lt_zero _ (hsize layer hmem)
    rfl
  | succ n ih =>
    intro layers hsize base
    rcases exists_object_map_or_reset layers with ⟨objects, rfl⟩ | ⟨top, htop⟩
    · by_cases hne : objects = []
      · subst hne
        rfl
      · rw [foldl_overlay_objects hne, foldl_overlay_objects hne]
        refine congrArg object (Members.ext fun key => ?_)
        have hsmall : ∀ v ∈ objects.filterMap (fun layer => layer.get? key), sizeOf v < n := by
          intro v hv
          obtain ⟨layer, hmem, hget⟩ := List.mem_filterMap.1 hv
          have hlayer := hsize (.object layer) (List.mem_map_of_mem hmem)
          have hmember := sizeOf_lt_of_get? layer hget
          rw [object.sizeOf_spec] at hlayer
          omega
        rw [get?_layeredMembers, object?, Option.getD_some, get?_layeredMembers]
        exact layeredAt_twice_of (ih _ hsmall) _
    · rw [htop, htop]

/-- **Layers laid twice are as good as laid once.** -/
theorem foldl_overlay_twice (layers : List Json) (base : Json) :
    layers.foldl overlay (layers.foldl overlay base) = layers.foldl overlay base :=
  foldl_overlay_twice_of_size (sizeOf layers) layers (fun _ hmem => List.sizeOf_lt_of_mem hmem) base

theorem layeredAt_twice (layers : List Json) (base : Option Json) :
    layeredAt (layeredAt base layers) layers = layeredAt base layers :=
  layeredAt_twice_of (foldl_overlay_twice layers) base

/-- **A replay changes nothing**: not of layers over any value, not of a whole list of layers, and not of a single
one. -/
theorem layers_replayed :
    (∀ (layers : List Json) (base : Json),
      layers.foldl overlay (layers.foldl overlay base) = layers.foldl overlay base) ∧
    (∀ layers : List Json, layered (layers ++ layers) = layered layers) ∧
    ∀ base upper : Json, (base.overlay upper).overlay upper = base.overlay upper := by
  refine ⟨foldl_overlay_twice, fun layers => ?_, fun base upper => foldl_overlay_twice [upper] base⟩
  unfold layered
  rw [List.foldl_append, foldl_overlay_twice]

end StepChain.Json
