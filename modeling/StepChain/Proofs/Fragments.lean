import Mathlib.Data.List.Induction
import StepChain.Generated
import StepChain.Proofs.Json.Replay
/-!
# Fragments, key by key

Fragments that collect in a section are merged at each key by itself, from left to right: the file list appends where
two lists meet, and everything else is laid over what was there (`get?_foldl_addFragment`).  The two ways part only where
both of two neighbouring values are lists.  So a file list that ends in lists is these lists joined, and one that does
not is what an overlay gives (`foldOf_appended_lists`, `foldOf_appended_eq_overlay`).
-/
namespace StepChain

open Json (Object Members overlay layeredAt layeredMembers)

/-- The values that objects have at a key, in order. -/
def valuesAt (key : String) (objects : List Object) : List Json := objects.filterMap (·.get? key)

/-- Values merged from left to right; none if there are none. -/
def foldOf (merge : Json → Json → Json) : List Json → Option Json
  | [] => none
  | first :: rest => some (rest.foldl merge first)

/-- Two lists one after the other; anything else is laid over. -/
def appended : Json → Json → Json
  | .array old, .array new => .array (old ++ new)
  | old, new => old.overlay new

/-- How two values of a key are merged. -/
def mergeAt (key : String) : Json → Json → Json := if key = fileListKey then appended else overlay

/-! ### Two values -/

theorem mergeAt_fileList : mergeAt fileListKey = appended := if_pos rfl

theorem mergeAt_of_ne {key : String} (h : key ≠ fileListKey) : mergeAt key = overlay := if_neg h

theorem overlay_array (base : Json) (items : List Json) : base.overlay (.array items) = .array items :=
  Json.overlay_of_not_object rfl base

theorem object?_of_array? {value : Json} (h : value.array?.isSome = true) : value.object? = none := by
  cases value with
  | array items => rfl
  | _ => cases h

theorem appended_of_not_array {old : Json} (h : old.array? = none) (new : Json) :
    appended old new = old.overlay new := by
  cases old with
  | array items => cases h
  | _ => rfl

theorem appended_not_array {new : Json} (h : new.array? = none) (old : Json) :
    appended old new = old.overlay new := by
  cases new with
  | array items => cases h
  | _ => cases old <;> rfl

theorem isSome_array?_overlay (old new : Json) : (old.overlay new).array?.isSome = new.array?.isSome := by
  cases new with
  | object o =>
    rw [Json.overlay_object_eq]
    rfl
  | _ => rw [Json.overlay_of_not_object rfl]

theorem isSome_array?_appended (old new : Json) : (appended old new).array?.isSome = new.array?.isSome := by
  cases hnew : new.array? with
  | none => rw [appended_not_array hnew, isSome_array?_overlay, hnew]
  | some items =>
    cases hold : old.array? with
    | none => rw [appended_of_not_array hold, isSome_array?_overlay, hnew]
    | some before =>
      cases old with
      | array old =>
        cases new with
        | array new => rfl
        | _ => cases hnew
      | _ => cases hold

theorem fragmentAt_none (key : String) (new : Json) : fragmentAt key none new = new := by
  cases new <;> rfl

theorem fragmentAt_some (key : String) (old new : Json) : fragmentAt key (some old) new = mergeAt key old new := by
  by_cases hkey : key = fileListKey
  · subst hkey
    rw [mergeAt_fileList]
    cases old with
    | array old =>
      cases new with
      | array new => rw [fragmentAt, if_pos rfl, appended]
      | _ => rfl
    | _ => cases new <;> rfl
  · rw [mergeAt_of_ne hkey]
    cases old with
    | array old =>
      cases new with
      | array new => rw [fragmentAt, if_neg hkey, overlay_array]
      | _ => rfl
    | _ => cases new <;> rfl

/-! ### All values of a key -/

theorem valuesAt_cons (key : String) (o : Object) (objects : List Object) :
    valuesAt key (o :: objects) = (o.get? key).toList ++ valuesAt key objects := by
  rw [valuesAt, List.filterMap_cons]
  cases o.get? key <;> rfl

theorem isSome_foldOf (merge : Json → Json → Json) (values : List Json) :
    (foldOf merge values).isSome = !values.isEmpty := by
  cases values <;> rfl

theorem foldOf_append {merge : Json → Json → Json} {values : List Json} {value : Json}
    (h : foldOf merge values = some value) (more : List Json) :
    foldOf merge (values ++ more) = some (more.foldl merge value) := by
  cases values with
  | nil => cases h
  | cons first rest => rw [List.cons_append, foldOf, List.foldl_append, Option.some.inj h]

theorem exists_foldOf_concat (merge : Json → Json → Json) (before : List Json) (last : Json) :
    ∃ value, foldOf merge (before ++ [last]) = some value := by
  rw [← Option.isSome_iff_exists, isSome_foldOf]
  simp

/-- **A key by itself**: what it holds after fragments is what it held and what each of them has for it, merged from left
to right. -/
theorem get?_foldl_addFragment (key : String) : ∀ (fragments : List Object) (start : Object),
    (fragments.foldl addFragment start).get? key = foldOf (mergeAt key) (valuesAt key (start :: fragments))
  | [], start => by
    rw [valuesAt_cons, List.foldl_nil]
    cases start.get? key <;> rfl
  | fragment :: fragments, start => by
    rw [List.foldl_cons, get?_foldl_addFragment key fragments, valuesAt_cons, get?_addFragment, valuesAt_cons key start,
      valuesAt_cons key fragment]
    cases hnew : fragment.get? key with
    | none => rfl
    | some new =>
      cases start.get? key with
      | none => exact congrArg (fun v => foldOf (mergeAt key) (v :: valuesAt key fragments)) (fragmentAt_none key new)
      | some old =>
        exact congrArg (fun v => foldOf (mergeAt key) (v :: valuesAt key fragments)) (fragmentAt_some key old new)

theorem foldOf_overlay (base : Option Json) (layers : List Json) :
    foldOf overlay (base.toList ++ layers) = layeredAt base layers := by
  cases base with
  | some b => exact (Json.layeredAt_some layers b).symm
  | none =>
    cases layers with
    | nil => rfl
    | cons layer layers => exact (Json.layeredAt_some layers layer).symm

/-- Objects that are laid over one another are laid over at each key. -/
theorem exists_foldl_overlay (start : Object) (fragments : List Object) :
    ∃ o, (fragments.map Json.object).foldl overlay (.object start) = .object o ∧
      ∀ key, o.get? key = foldOf overlay (valuesAt key (start :: fragments)) := by
  refine ⟨layeredMembers start fragments, ?_, fun key => ?_⟩
  · by_cases hne : fragments = []
    · subst hne
      rfl
    · exact Json.foldl_overlay_objects hne _
  · rw [Json.get?_layeredMembers, valuesAt_cons, foldOf_overlay, valuesAt]

/-! ### File lists -/

theorem foldl_appended_array : ∀ (lists : List (List Json)) (items : List Json),
    (lists.map Json.array).foldl appended (.array items) = .array (items ++ lists.flatten)
  | [], items => by
    rw [List.flatten_nil, List.append_nil]
    rfl
  | list :: lists, items => by
    rw [List.map_cons, List.foldl_cons, appended, foldl_appended_array lists, List.flatten_cons, List.append_assoc]

/-- **Lists one by one are as good as one list.** -/
theorem foldl_appended_lists {lists : List (List Json)} (h : lists ≠ []) (value : Json) :
    (lists.map Json.array).foldl appended value = appended value (.array lists.flatten) := by
  cases value with
  | array items => exact foldl_appended_array lists items
  | _ =>
    -- the first list replaces what is no list
    obtain ⟨list, lists, rfl⟩ := List.exists_cons_of_ne_nil h
    rw [List.map_cons, List.foldl_cons, appended_of_not_array rfl, overlay_array, foldl_appended_array,
      appended_of_not_array rfl, overlay_array, List.flatten_cons]

/-- Merged in either way, values come to a list exactly if the last one is a list. -/
theorem isSome_array?_foldOf {merge : Json → Json → Json}
    (hmerge : ∀ old new, (merge old new).array?.isSome = new.array?.isSome) {before : List Json} {last value : Json}
    (h : foldOf merge (before ++ [last]) = some value) : value.array?.isSome = last.array?.isSome := by
  cases hbefore : foldOf merge before with
  | none =>
    have hempty := isSome_foldOf merge before
    rw [hbefore, Option.isSome_none, eq_comm, Bool.not_eq_eq_eq_not, Bool.not_false, List.isEmpty_iff] at hempty
    rw [hempty] at h
    rw [← Option.some.inj h]
    rfl
  | some old =>
    rw [foldOf_append hbefore] at h
    rw [← Option.some.inj h]
    exact hmerge old last

/-- **Lists at the end are joined**, and of what is before them nothing is left. -/
theorem foldOf_appended_lists {before : List Json} {lists : List (List Json)} (hne : lists ≠ [])
    (hbefore : ∀ v ∈ before.getLast?, v.array? = none) :
    foldOf appended (before ++ lists.map Json.array) = some (.array lists.flatten) := by
  rcases List.eq_nil_or_concat before with rfl | ⟨before, last, rfl⟩
  · obtain ⟨list, lists, rfl⟩ := List.exists_cons_of_ne_nil hne
    rw [List.nil_append, List.map_cons, foldOf, foldl_appended_array, List.flatten_cons]
  · rw [List.concat_eq_append] at hbefore ⊢
    have hlast : last.array? = none := hbefore last List.getLast?_concat
    obtain ⟨value, hvalue⟩ := exists_foldOf_concat appended before last
    have hnone : value.array? = none := by
      have hlist := isSome_array?_foldOf isSome_array?_appended hvalue
      rwa [hlast, Option.isSome_none, Option.isSome_eq_false_iff, Option.isNone_iff_eq_none] at hlist
    rw [foldOf_append hvalue, foldl_appended_lists hne, appended_of_not_array hnone, overlay_array]

/-- **Without a list at the end both ways of merging come to the same.** -/
theorem foldOf_appended_eq_overlay (before : List Json) : ∀ {last : Json}, last.array? = none →
    foldOf appended (before ++ [last]) = foldOf overlay (before ++ [last]) := by
  induction before using List.reverseRecOn with
  | nil => exact fun _ => rfl
  | append_singleton before below ih =>
    intro last hlast
    obtain ⟨merged, hmerged⟩ := exists_foldOf_concat appended before below
    obtain ⟨laid, hlaid⟩ := exists_foldOf_concat overlay before below
    -- what lies below is the same, or it is a list both times, of which nothing shows
    have hsame : merged.overlay last = laid.overlay last := by
      by_cases hbelow : below.array? = none
      · rw [ih hbelow, hlaid] at hmerged
        rw [Option.some.inj hmerged]
      · have hlist := Option.isSome_iff_ne_none.2 hbelow
        have hmergedList := (isSome_array?_foldOf isSome_array?_appended hmerged).trans hlist
        have hlaidList := (isSome_array?_foldOf isSome_array?_overlay hlaid).trans hlist
        rw [Json.overlay_on_not_object (object?_of_array? hmergedList),
          Json.overlay_on_not_object (object?_of_array? hlaidList)]
    rw [foldOf_append hmerged, foldOf_append hlaid]
    exact congrArg some ((appended_not_array hlast merged).trans hsame)

/-! ### Sections -/

/-- A fragment with nothing but a file list. -/
def listFragment (items : List Json) : Object := Members.ofList [(fileListKey, .array items)]

theorem valuesAt_listFragment {key : String} (h : key ≠ fileListKey) (lists : List (List Json)) :
    valuesAt key (lists.map listFragment) = [] := by
  rw [valuesAt, List.filterMap_eq_nil_iff]
  intro o ho
  obtain ⟨items, -, rfl⟩ := List.mem_map.1 ho
  exact (Members.get?_insert .nil fileListKey (.array items) key).trans (if_neg h)

theorem valuesAt_fileList_listFragment (lists : List (List Json)) :
    valuesAt fileListKey (lists.map listFragment) = lists.map Json.array := by
  rw [valuesAt, List.filterMap_map]
  exact congrFun List.filterMap_eq_map lists

/-- What an object and fragments after it come to at each key. -/
structure Collected (start : Object) (fragments : List Object) (result : Object) : Prop where
  keys : ∀ key, (result.get? key).isSome ↔ ∃ o ∈ start :: fragments, (o.get? key).isSome
  overlaid : ∀ key, key ≠ fileListKey → result.get? key = foldOf overlay (valuesAt key (start :: fragments))
  asObjects : ∃ o, (fragments.map Json.object).foldl overlay (.object start) = .object o ∧
    ∀ key, key ≠ fileListKey → result.get? key = o.get? key
  listed : result.get? fileListKey = foldOf appended (valuesAt fileListKey (start :: fragments))
  pair : ∀ before old new after, valuesAt fileListKey (start :: fragments) = before ++ old :: new :: after →
    old.array? = none ∨ new.array? = none → ∃ merged, foldOf appended (before ++ [old]) = some merged ∧
      foldOf appended (before ++ [old, new]) = some (merged.overlay new)
  joined : ∀ before lists, valuesAt fileListKey (start :: fragments) = before ++ lists.map Json.array → lists ≠ [] →
    (∀ v ∈ before.getLast?, v.array? = none) → result.get? fileListKey = some (.array lists.flatten)
  notJoined : ∀ before last, valuesAt fileListKey (start :: fragments) = before ++ [last] → last.array? = none →
    result.get? fileListKey = foldOf overlay (valuesAt fileListKey (start :: fragments))
  asOne : ∀ lists single, valuesAt fileListKey fragments = lists.map Json.array → lists ≠ [] →
    single.get? fileListKey = some (.array lists.flatten) →
    result.get? fileListKey = (addFragment start single).get? fileListKey

theorem exists_isSome_get?_iff (key : String) (objects : List Object) :
    (∃ o ∈ objects, (o.get? key).isSome) ↔ valuesAt key objects ≠ [] := by
  rw [valuesAt, Ne, List.filterMap_eq_nil_iff]
  simp only [not_forall, Option.isSome_iff_ne_none, exists_prop, ne_eq]

theorem pair_of_not_arrays (before : List Json) {old new : Json} (h : old.array? = none ∨ new.array? = none) :
    ∃ merged, foldOf appended (before ++ [old]) = some merged ∧
      foldOf appended (before ++ [old, new]) = some (merged.overlay new) := by
  obtain ⟨merged, hmerged⟩ := exists_foldOf_concat appended before old
  refine ⟨merged, hmerged, ?_⟩
  have hnext : foldOf appended (before ++ [old] ++ [new]) = some (appended merged new) := foldOf_append hmerged [new]
  rw [List.append_assoc, List.singleton_append] at hnext
  rw [hnext]
  rcases h with hold | hnew
  · have hlist := isSome_array?_foldOf isSome_array?_appended hmerged
    rw [hold, Option.isSome_none, Option.isSome_eq_false_iff, Option.isNone_iff_eq_none] at hlist
    rw [appended_of_not_array hlist]
  · rw [appended_not_array hnew]

theorem get?_fileList_single {start single : Object} {fragments : List Object} {lists : List (List Json)}
    (hvalues : valuesAt fileListKey fragments = lists.map Json.array) (hne : lists ≠ [])
    (hsingle : single.get? fileListKey = some (.array lists.flatten)) :
    (fragments.foldl addFragment start).get? fileListKey = (addFragment start single).get? fileListKey := by
  have hone := get?_foldl_addFragment fileListKey [single] start
  have hvalue : valuesAt fileListKey [single] = [.array lists.flatten] := by rw [valuesAt_cons, hsingle]; rfl
  rw [List.foldl_cons, List.foldl_nil, mergeAt_fileList, valuesAt_cons, hvalue] at hone
  rw [hone, get?_foldl_addFragment, mergeAt_fileList, valuesAt_cons, hvalues]
  cases start.get? fileListKey with
  | none => exact foldOf_appended_lists hne (by simp)
  | some value => exact congrArg some (foldl_appended_lists hne value)

theorem collected_foldl_addFragment (start : Object) (fragments : List Object) :
    Collected start fragments (fragments.foldl addFragment start) := by
  have hget := fun key => get?_foldl_addFragment key fragments start
  have hfiles := hget fileListKey
  rw [mergeAt_fileList] at hfiles
  refine ⟨fun key => ?_, fun key hkey => ?_, ?_, hfiles, fun before _ _ _ _ h => pair_of_not_arrays before h, ?_, ?_, ?_⟩
  · rw [hget, isSome_foldOf, exists_isSome_get?_iff]
    simp
  · rw [hget, mergeAt_of_ne hkey]
  · obtain ⟨o, ho, hat⟩ := exists_foldl_overlay start fragments
    exact ⟨o, ho, fun key hkey => by rw [hget, mergeAt_of_ne hkey, hat]⟩
  · intro before lists hvalues hne hbefore
    rw [hfiles, hvalues, foldOf_appended_lists hne hbefore]
  · intro before last hvalues hlast
    rw [hfiles, hvalues, foldOf_appended_eq_overlay before hlast]
  · exact fun lists single hvalues hne hsingle => get?_fileList_single hvalues hne hsingle

/-- **Two ways of merging that differ on file lists alone.**  At each key fragments come to a fold of its values alone,
whatever the other keys hold: by overlay, as for the fragments as objects, but for the file list, which appends a list to
a list.  So lists that nothing else interrupts are joined, and may as well be given as one list. -/
theorem fragments_keywise :
    (∀ (start : Object) (fragments : List Object),
      Collected start fragments (fragments.foldl addFragment start)) ∧
    (∀ (start : Object) (lists : List (List Json)), lists ≠ [] →
      (lists.map listFragment).foldl addFragment start = addFragment start (listFragment lists.flatten)) ∧
    ∀ (key : String) (start start' : Object) (fragments fragments' : List Object), start.get? key = start'.get? key →
      valuesAt key fragments = valuesAt key fragments' →
      (fragments.foldl addFragment start).get? key = (fragments'.foldl addFragment start').get? key := by
  refine ⟨collected_foldl_addFragment, fun start lists hne => Members.ext fun key => ?_, ?_⟩
  · by_cases hkey : key = fileListKey
    · subst hkey
      exact get?_fileList_single (valuesAt_fileList_listFragment lists) hne rfl
    · have hnone := valuesAt_listFragment hkey lists
      have hone := valuesAt_listFragment hkey [lists.flatten]
      have hsingle := get?_foldl_addFragment key ([lists.flatten].map listFragment) start
      rw [get?_foldl_addFragment, valuesAt_cons, hnone, ← hone, ← valuesAt_cons, ← hsingle]
      rfl
  · intro key start start' fragments fragments' hstart hvalues
    rw [get?_foldl_addFragment, get?_foldl_addFragment, valuesAt_cons, valuesAt_cons, hstart, hvalues]

/-- Fragments among which one has an object for its file list. -/
def interrupted : List Object :=
  [listFragment [.string "a"], .ofList [(fileListKey, .object .nil), ("banner", .null)], listFragment [.string "b"],
    listFragment [.string "c", .string "d"]]

/-- The lists after the object are joined, and may be given as one; with another section to start from the banner is the
same. -/
theorem fragments_keywise_interrupted :
    (interrupted.foldl addFragment (listFragment [.null])).get? fileListKey =
      some (.array [.string "b", .string "c", .string "d"]) ∧
    [listFragment [.string "b"], listFragment [.string "c", .string "d"]].foldl addFragment .nil =
      addFragment .nil (listFragment [.string "b", .string "c", .string "d"]) ∧
    (interrupted.foldl addFragment (listFragment [.null])).get? "banner" =
      (interrupted.foldl addFragment .nil).get? "banner" := by
  obtain ⟨hcollected, hone, hapart⟩ := fragments_keywise
  refine ⟨?_, hone .nil [[.string "b"], [.string "c", .string "d"]] (by simp), hapart _ _ _ _ _ rfl rfl⟩
  exact (hcollected (listFragment [.null]) interrupted).joined [.array [.null], .array [.string "a"], .object .nil]
    [[.string "b"], [.string "c", .string "d"]] rfl (by simp) (by simp [Json.array?])

end StepChain
