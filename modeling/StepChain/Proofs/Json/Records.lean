import StepChain.Json.Document
import StepChain.Proofs.Traversal
/-!
# Records and what they ignore

An object has each key once, so the fields of a record in it are the values of its keys, in whatever order they are
written (`Document.record?_of_perm`).  Members of other names may stand anywhere among them (`Widening`); a record finds
the same fields there (`Document.exists_record?_of_widening`).
-/
namespace StepChain.Json

open Document (ofJson ofItems ofMembers member? record?)

theorem ofItems_eq_map : ∀ items : List Json, ofItems items = items.map ofJson
  | [] => rfl
  | _ :: items => congrArg _ (ofItems_eq_map items)

namespace Document

theorem all_isSome_ofMembers : {low : Option String} → (ms : Members low) →
    (ofMembers ms).all (·.1.isSome) = true
  | _, .nil => rfl
  | _, .cons _ _ _ rest => by
    rw [ofMembers, List.all_cons, all_isSome_ofMembers rest]
    rfl

theorem filter_ofMembers (name : String) : {low : Option String} → (ms : Members low) →
    (ofMembers ms).filter (·.1 == some name) = ((ms.get? name).map fun v => (some name, ofJson v)).toList
  | _, .nil => rfl
  | _, .cons k _ v rest => by
    have ih := filter_ofMembers name rest
    rw [ofMembers, List.filter_cons, ih, Members.get?_cons]
    by_cases hk : name = k
    · subst hk
      simp [Members.get?_eq_none_of_not_lt rest (String.lt_irrefl _)]
    · simp [hk, Ne.symm hk]

theorem record?_object {names : List String} {ms : List (Option String × Document)} {fields : List (Option Document)} :
    record? names (.object ms) = some fields ↔
      ms.all (·.1.isSome) = true ∧ List.Forall₂ (fun name field => member? ms name = some field) names fields := by
  unfold record?
  rw [← mapM_eq_some_iff]
  by_cases h : ms.all (·.1.isSome) = true <;> simp [h]

/-- An object has each key once, so it does not matter in which order its members are written. -/
theorem member?_of_perm {low : Option String} {ms : Members low} {members : List (Option String × Document)}
    (h : members.Perm (ofMembers ms)) (name : String) :
    member? members name = some ((ms.get? name).map ofJson) := by
  have hfilter := h.filter (·.1 == some name)
  rw [filter_ofMembers] at hfilter
  unfold member?
  cases hget : ms.get? name with
  | none =>
    rw [hget] at hfilter
    rw [List.perm_nil.1 hfilter]
    rfl
  | some v =>
    rw [hget] at hfilter
    rw [List.perm_singleton.1 hfilter]
    rfl

/-- **The fields of a record in an object are what stands under its keys.** -/
theorem record?_of_perm (names : List String) {o : Object} {members : List (Option String × Document)}
    (h : members.Perm (ofMembers o)) :
    record? names (.object members) = some (names.map fun name => (o.get? name).map ofJson) := by
  rw [record?_object, List.forall₂_map_right_iff, List.forall₂_same]
  have hproper := all_isSome_ofMembers o
  rw [List.all_eq_true] at hproper ⊢
  exact ⟨fun m hm => hproper m (h.subset hm), fun name _ => member?_of_perm h name⟩

theorem record?_array {names : List String} {items : List Document} (h : items.length = names.length) :
    record? names (.array items) = some (items.map some) := by
  simp [record?, h]

end Document

/-- Members with more members among them, all of names that are not among `names`; a value may have changed as `inside`
allows. -/
inductive Widening (names : List String) (inside : Document → Document → Prop) :
    List (Option String × Document) → List (Option String × Document) → Prop where
  | nil : Widening names inside [] []
  | keep (key : Option String) {v v' : Document} {ms ms' : List (Option String × Document)} (value : inside v v')
      (rest : Widening names inside ms ms') : Widening names inside ((key, v) :: ms) ((key, v') :: ms')
  | add {key : String} (unknown : key ∉ names) (v : Document) {ms ms' : List (Option String × Document)}
      (rest : Widening names inside ms ms') : Widening names inside ms ((some key, v) :: ms')

variable {names : List String} {inside : Document → Document → Prop} {ms ms' : List (Option String × Document)}

theorem Widening.of_refl (h : ∀ d, inside d d) : ∀ ms : List (Option String × Document), Widening names inside ms ms
  | [] => .nil
  | (key, v) :: ms => .keep key (h v) (of_refl h ms)

theorem Widening.all_isSome (h : Widening names inside ms ms') :
    ms'.all (·.1.isSome) = ms.all (·.1.isSome) := by
  induction h with
  | nil => rfl
  | keep key _ _ ih => rw [List.all_cons, List.all_cons, ih]
  | add _ _ _ ih => rw [List.all_cons, ih, Option.isSome_some, Bool.true_and]

theorem Widening.filter (h : Widening names inside ms ms') {name : String} (hname : name ∈ names) :
    List.Forall₂ (fun m m' => inside m.2 m'.2) (ms.filter (·.1 == some name)) (ms'.filter (·.1 == some name)) := by
  induction h with
  | nil => exact .nil
  | keep key value _ ih =>
    by_cases hkey : key = some name
    · simpa [hkey] using ⟨value, ih⟩
    · simpa [hkey] using ih
  | @add key unknown _ _ _ _ ih =>
    have hkey : key ≠ name := fun heq => unknown (heq ▸ hname)
    simpa [hkey] using ih

theorem Widening.exists_member? (h : Widening names inside ms ms') {name : String} (hname : name ∈ names)
    {field : Option Document} (hfield : member? ms name = some field) :
    ∃ field', member? ms' name = some field' ∧ Option.Rel inside field field' := by
  have hfilter := h.filter hname
  unfold member? at *
  revert hfield
  generalize ms.filter (·.1 == some name) = before at *
  generalize ms'.filter (·.1 == some name) = after at *
  cases hfilter with
  | nil =>
    rintro ⟨⟩
    exact ⟨none, rfl, .none⟩
  | cons hvalue hrest => cases hrest with
    | nil =>
      rintro ⟨⟩
      exact ⟨_, rfl, .some hvalue⟩
    | cons _ _ =>
      -- a name that stands twice is no field, so there is nothing to find
      rintro ⟨⟩

theorem exists_forall₂_of_forall₂ {α β γ : Type} {R : α → β → Prop} {S : α → γ → Prop} {T : β → γ → Prop}
    {xs : List α} {ys : List β} (h : List.Forall₂ R xs ys) (hnext : ∀ x ∈ xs, ∀ y, R x y → ∃ z, S x z ∧ T y z) :
    ∃ zs, List.Forall₂ S xs zs ∧ List.Forall₂ T ys zs := by
  induction h with
  | nil => exact ⟨[], .nil, .nil⟩
  | @cons x y xs ys hxy _ ih =>
    obtain ⟨z, hS, hT⟩ := hnext x List.mem_cons_self y hxy
    obtain ⟨zs, hSs, hTs⟩ := ih fun x' hx' => hnext x' (List.mem_cons_of_mem x hx')
    exact ⟨z :: zs, .cons hS hSs, .cons hT hTs⟩

/-- **A record finds its fields among members that it does not know.** -/
theorem Document.exists_record?_of_widening (h : Widening names inside ms ms') {fields : List (Option Document)}
    (hfields : record? names (.object ms) = some fields) :
    ∃ fields', record? names (.object ms') = some fields' ∧ List.Forall₂ (Option.Rel inside) fields fields' := by
  obtain ⟨hproper, hnames⟩ := record?_object.1 hfields
  obtain ⟨fields', hnames', hrel⟩ := exists_forall₂_of_forall₂ hnames fun name hname _ hfield =>
    h.exists_member? hname hfield
  exact ⟨fields', record?_object.2 ⟨h.all_isSome.trans hproper, hnames'⟩, hrel⟩

end StepChain.Json
