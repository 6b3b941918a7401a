import StepChain.Proofs.Json.KeyPaths
/-!
# Layers merged beforehand

Laying values over one another is not associative: a value between two objects that is none itself drops the lower one,
but merged with the upper one beforehand it is gone and the lower one shows through.  Where that happens at no key that
all three have (`Compatible`), the grouping does not matter (`overlay_assoc`), and two neighbours in a list of layers may
be merged into one (`overlay_grouped`).
-/
namespace StepChain.Json

/-- No value that is no object stands between two objects, neither here nor at the keys of three objects. -/
inductive Compatible : Json → Json → Json → Prop where
  | intro {low middle high : Json}
      (unbroken : ¬ (low.isObject = true ∧ high.isObject = true ∧ middle.isObject = false))
      (below : ∀ key l m h, low.child? key = some l → middle.child? key = some m → high.child? key = some h →
        Compatible l m h) : Compatible low middle high

theorem exists_object_of_isObject {value : Json} (h : value.isObject = true) : ∃ o, value = .object o := by
  cases value with
  | object o => exact ⟨o, rfl⟩
  | _ => cases h

/-- With a value on top that is no object, nothing below it counts. -/
theorem overlay_assoc_of_top {high : Json} (h : high.isObject = false) (low middle : Json) :
    (low.overlay middle).overlay high = low.overlay (middle.overlay high) := by
  have hnone := isObject_eq_false.1 h
  rw [overlay_of_not_object hnone, overlay_of_not_object hnone, overlay_of_not_object hnone]

/-- Over a value that is no object, everything is as if it lay at the bottom. -/
theorem overlay_assoc_of_bottom {low : Json} (h : low.isObject = false) (middle high : Json) :
    (low.overlay middle).overlay high = low.overlay (middle.overlay high) := by
  have hnone := isObject_eq_false.1 h
  rw [overlay_on_not_object hnone, overlay_on_not_object hnone]

/-- Three objects are grouped as the values are at the keys that all three have. -/
theorem overlayMembers_assoc {low middle high : Object}
    (h : ∀ key l m u, low.get? key = some l → middle.get? key = some m → high.get? key = some u →
      (l.overlay m).overlay u = l.overlay (m.overlay u)) :
    overlayMembers (overlayMembers low middle) high = overlayMembers low (overlayMembers middle high) := by
  apply Members.ext
  intro key
  simp only [get?_overlayMembers]
  cases hhigh : high.get? key with
  | none => rfl
  | some u => cases hmiddle : middle.get? key with
    | none => rfl
    | some m => cases hlow : low.get? key with
      | none => rfl
      | some l => exact congrArg some (h key l m u hlow hmiddle hhigh)

/-- **Compatible values may be grouped either way.** -/
theorem overlay_assoc {low middle high : Json} (h : Compatible low middle high) :
    (low.overlay middle).overlay high = low.overlay (middle.overlay high) := by
  induction h with
  | @intro low middle high unbroken _ ih =>
    cases hhigh : high.isObject with
    | false => exact overlay_assoc_of_top hhigh low middle
    | true => cases hlow : low.isObject with
      | false => exact overlay_assoc_of_bottom hlow middle high
      | true =>
        have hmiddle : middle.isObject = true := by
          cases hbroken : middle.isObject with
          | true => rfl
          | false => exact absurd ⟨hlow, hhigh, hbroken⟩ unbroken
        obtain ⟨l, rfl⟩ := exists_object_of_isObject hlow
        obtain ⟨m, rfl⟩ := exists_object_of_isObject hmiddle
        obtain ⟨u, rfl⟩ := exists_object_of_isObject hhigh
        simp only [overlay_object]
        exact congrArg object (overlayMembers_assoc ih)

-- A value between two objects drops the lower one, but not if it was merged with the upper one beforehand.
example :
    (((object (.ofList [("a", .null)])).overlay .null).overlay (.object (.ofList [("b", .null)]))).valueAt? ["a"] = none ∧
    ((object (.ofList [("a", .null)])).overlay (Json.null.overlay (.object (.ofList [("b", .null)])))).valueAt? ["a"] =
      some .null := ⟨rfl, rfl⟩

/-- **Neighbouring layers may be merged beforehand** where they are compatible with all that lies below them. -/
theorem overlay_grouped :
    (∀ low middle high : Json, Compatible low middle high →
      (low.overlay middle).overlay high = low.overlay (middle.overlay high)) ∧
    ∀ (lower : List Json) (first second : Json) (upper : List Json), Compatible (layered lower) first second →
      layered (lower ++ first.overlay second :: upper) = layered (lower ++ first :: second :: upper) := by
  refine ⟨fun _ _ _ => overlay_assoc, fun lower first second upper h => ?_⟩
  have hassoc := overlay_assoc h
  unfold layered at *
  rw [List.foldl_append, List.foldl_append, List.foldl_cons, List.foldl_cons, List.foldl_cons, hassoc]

/-- The settings that all share. -/
def sharedSettings : Json :=
  .object (.ofList [("uglify", .object (.ofList [("banner", .string "v1"), ("mangle", .bool true)])),
    ("watch", .object (.ofList [("poll", .null)]))])

/-- Settings of a team: one value becomes an object, and one object goes. -/
def teamSettings : Json :=
  .object (.ofList [("uglify", .object (.ofList [("mangle", .object (.ofList [("keep", .array [.string "$"])]))])),
    ("watch", .null)])

def ownSettings : Json :=
  .object (.ofList [("uglify", .object (.ofList [("mangle", .object (.ofList [("toplevel", .bool false)]))]))])

theorem eq_of_child?_singleton {k key : String} {v w : Json} (h : (object (.ofList [(k, v)])).child? key = some w) :
    key = k ∧ v = w := by
  have hget : (Members.insert .nil k v).get? key = some w := h
  simpa using hget

theorem compatible_settings : Compatible sharedSettings teamSettings ownSettings := by
  refine .intro (by simp [teamSettings, isObject, object?]) fun key l m h hlow hmiddle hhigh => ?_
  obtain ⟨rfl, rfl⟩ := eq_of_child?_singleton hhigh
  obtain rfl := Option.some.inj (show some _ = some m from hmiddle)
  obtain rfl := Option.some.inj (show some _ = some l from hlow)
  refine .intro (by simp [isObject, object?]) fun key l m h hlow hmiddle hhigh => ?_
  obtain ⟨rfl, rfl⟩ := eq_of_child?_singleton hhigh
  obtain rfl := Option.some.inj (show some _ = some l from hlow)
  refine .intro (by simp [isObject, object?]) fun key l m h hlow _ _ => ?_
  cases hlow

/-- The value that the team makes an object is none in the shared settings, so nothing shows through. -/
theorem overlay_grouped_settings :
    Compatible sharedSettings teamSettings ownSettings ∧
    (sharedSettings.overlay teamSettings).overlay ownSettings =
      sharedSettings.overlay (teamSettings.overlay ownSettings) ∧
    Compatible (layered [sharedSettings]) teamSettings ownSettings ∧
    layered ([sharedSettings] ++ teamSettings.overlay ownSettings :: []) =
      layered ([sharedSettings] ++ teamSettings :: ownSettings :: []) := by
  have hlayered : Compatible (layered [sharedSettings]) teamSettings ownSettings :=
    (overlay_null sharedSettings).symm ▸ compatible_settings
  exact ⟨compatible_settings, overlay_grouped.1 _ _ _ compatible_settings, hlayered,
    overlay_grouped.2 _ _ _ _ hlayered⟩

end StepChain.Json
