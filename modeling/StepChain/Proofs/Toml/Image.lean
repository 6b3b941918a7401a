import StepChain.Proofs.Toml.Keys
/-!
# The JSON image of a value

`Imaged` says what the image of a value is, whatever way it is made: items keep their places and keys their values, a
datetime becomes its text, and only a float without a finite value becomes `null`.  `Value.toJson` makes such an image of
every value that holds each key once (`Value.Distinct.imaged`).
-/
namespace StepChain

open Json (Members)

/-- Members that are set one after another are found as they were given, if each key is given once. -/
theorem Json.Members.get?_foldl_insert (key : String) : ∀ (entries : List (String × Json)) (o : Json.Object),
    (entries.map (·.1)).Nodup → (entries.foldl (fun o e => o.insert e.1 e.2) o).get? key =
      ((entries.find? (·.1 == key)).map (·.2)).or (o.get? key)
  | [], o, _ => rfl
  | e :: entries, o, h => by
    rw [List.map_cons, List.nodup_cons] at h
    rw [List.foldl_cons, get?_foldl_insert key entries (o.insert e.1 e.2) h.2, get?_insert]
    by_cases he : e.1 = key
    · rw [find?_eq_none_of_not_mem (he ▸ h.1), List.find?_cons_of_pos (by simpa using he), if_pos he.symm]
      rfl
    · rw [List.find?_cons_of_neg (by simpa using he), if_neg (Ne.symm he)]

namespace Toml

inductive Imaged : Value → Json → Prop where
  | string (s : String) : Imaged (.string s) (.string s)
  | integer (n : Int) : Imaged (.integer n) (.number (.int n))
  | float (x : Binary64) : Imaged (.float (some x)) (.number (.float x))
  | notFinite : Imaged (.float none) .null
  | boolean (b : Bool) : Imaged (.boolean b) (.bool b)
  | datetime (d : Datetime) : Imaged (.datetime d) (.string d.text)
  | array {items : List Value} {images : List Json} (places : List.Forall₂ Imaged items images) :
      Imaged (.array items) (.array images)
  | table {entries : Table} {image : Json.Object}
      (keys : ∀ key, Option.Rel Imaged (Table.get? entries key) (image.get? key)) : Imaged (.table entries) (.object image)

theorem Imaged.exists_get? {entries : Table} {image : Json.Object} (h : Imaged (.table entries) (.object image))
    (key : String) {v : Value} (hv : Table.get? entries key = some v) : ∃ j, image.get? key = some j ∧ Imaged v j := by
  cases h with
  | table keys =>
    have hkey := keys key
    rw [hv] at hkey
    generalize image.get? key = found at hkey ⊢
    cases hkey with
    | some hj => exact ⟨_, rfl, hj⟩

namespace Value

theorem itemsToJson_eq_map : ∀ items : List Value, itemsToJson items = items.map toJson
  | [] => rfl
  | _ :: items => congrArg _ (itemsToJson_eq_map items)

theorem entriesToJson_eq_map : ∀ entries : Table, entriesToJson entries = entries.map fun e => (e.1, e.2.toJson)
  | [] => rfl
  | _ :: entries => congrArg _ (entriesToJson_eq_map entries)

/-- Under each key of the image of a table is the image of what the table holds there. -/
theorem get?_ofList_entriesToJson {entries : Table} (h : (entries.map (·.1)).Nodup) (key : String) :
    (Members.ofList (entriesToJson entries)).get? key = (Table.get? entries key).map toJson := by
  have hkeys : ((entriesToJson entries).map (·.1)).Nodup := by
    rw [entriesToJson_eq_map, List.map_map]
    exact h
  rw [Members.ofList, Members.get?_foldl_insert key _ _ hkeys, Members.get?_nil, Option.or_none, entriesToJson_eq_map,
    List.find?_map, Option.map_map, Table.get?, Option.map_map]
  rfl

/-- **The image keeps everything**, where no table holds a key twice. -/
theorem Distinct.imaged {v : Value} (h : v.Distinct) : Imaged v v.toJson := by
  induction h with
  | string s => exact .string s
  | integer n => exact .integer n
  | float x =>
    cases x with
    | none => exact .notFinite
    | some x => exact .float x
  | boolean b => exact .boolean b
  | datetime d => exact .datetime d
  | array _ ih =>
    rw [toJson, itemsToJson_eq_map]
    exact .array (List.forall₂_map_right_iff.2 (List.forall₂_same.2 ih))
  | @table entries keys _ ih =>
    refine .table fun key => ?_
    rw [get?_ofList_entriesToJson keys, Table.get?]
    cases hfind : entries.find? (·.1 == key) with
    | none => exact .none
    | some e => exact .some (ih e (List.mem_of_find?_eq_some hfind))

end Value

end Toml

end StepChain
