import Mathlib.Data.List.Forall2
/-!
# Traversals that may fail

A list is traversed by a function that may fail: the first failure decides (`faultOf_mapM`), and without one every item
has its result in its place (`mapM_eq_ok_iff`).  Groups that are traversed one after another are one list of items, each
with the key of its group (`map_keyed_mapM`).
-/
namespace StepChain

def faultOf {ε α : Type} : Except ε α → Option ε
  | .ok _ => none
  | .error e => some e

variable {ε α β : Type}

theorem faultOf_eq_none {x : Except ε α} : faultOf x = none ↔ ∃ a, x = .ok a := by
  cases x <;> simp [faultOf]

theorem faultOf_eq_some {x : Except ε α} {e : ε} : faultOf x = some e ↔ x = .error e := by
  cases x <;> simp [faultOf]

theorem faultOf_map (f : α → β) (x : Except ε α) : faultOf (x.map f) = faultOf x := by
  cases x <;> rfl

theorem ok_bind (a : α) (f : α → Except ε β) : .ok a >>= f = f a := rfl

theorem bind_eq_ok {x : Except ε α} {f : α → Except ε β} {b : β} :
    x >>= f = .ok b ↔ ∃ a, x = .ok a ∧ f a = .ok b := by
  cases x <;> simp [bind, Except.bind]

theorem bind_eq_error {x : Except ε α} {f : α → Except ε β} {e : ε} :
    x >>= f = .error e ↔ x = .error e ∨ ∃ a, x = .ok a ∧ f a = .error e := by
  cases x <;> simp [bind, Except.bind]

theorem mapError_eq_ok {δ : Type} {x : Except ε α} {f : ε → δ} {a : α} : x.mapError f = .ok a ↔ x = .ok a := by
  cases x <;> simp [Except.mapError]

theorem mapError_eq_error {δ : Type} {x : Except ε α} {f : ε → δ} {e : δ} :
    x.mapError f = .error e ↔ ∃ cause, x = .error cause ∧ f cause = e := by
  cases x <;> simp [Except.mapError]

theorem exists_of_map_eq_ok {x : Except ε α} {f : α → β} {b : β} (h : x.map f = .ok b) : ∃ a, x = .ok a ∧ f a = b := by
  cases x with
  | error e => cases h
  | ok a => exact ⟨a, rfl, Except.ok.inj h⟩

theorem exists_of_toOption_any {x : Except ε α} {f : α → Bool} (h : x.toOption.any f = true) :
    ∃ a, x = .ok a ∧ f a = true := by
  cases x with
  | error e => cases h
  | ok a => exact ⟨a, rfl, h⟩

/-- A traversal fails as its first item that fails. -/
theorem faultOf_mapM (f : α → Except ε β) : ∀ xs : List α, faultOf (xs.mapM f) = xs.findSome? fun x => faultOf (f x)
  | [] => rfl
  | x :: xs => by
    have ih := faultOf_mapM f xs
    rw [List.mapM_cons, List.findSome?_cons]
    cases hx : f x with
    | error e => rfl
    | ok b =>
      change _ = xs.findSome? fun x => faultOf (f x)
      rw [← ih]
      cases xs.mapM f <;> rfl

theorem forall₂_of_mapM {f : α → Except ε β} : ∀ {xs : List α} {ys : List β}, xs.mapM f = .ok ys →
    List.Forall₂ (fun x y => f x = .ok y) xs ys
  | [], ys, h => by
    cases h
    exact .nil
  | x :: xs, ys, h => by
    rw [List.mapM_cons] at h
    obtain ⟨y, hx, h⟩ := bind_eq_ok.1 h
    obtain ⟨rest, hxs, h⟩ := bind_eq_ok.1 h
    cases h
    exact .cons hx (forall₂_of_mapM hxs)

theorem mapM_eq_ok_iff {f : α → Except ε β} {xs : List α} {ys : List β} :
    xs.mapM f = .ok ys ↔ List.Forall₂ (fun x y => f x = .ok y) xs ys := by
  refine ⟨forall₂_of_mapM, fun h => ?_⟩
  induction h with
  | nil => rfl
  | cons hx _ ih =>
    rw [List.mapM_cons, hx, ih]
    rfl

/-- **A traversal fails at its first item that fails.** -/
theorem mapM_eq_error_iff {f : α → Except ε β} {xs : List α} {e : ε} : xs.mapM f = .error e ↔
    ∃ before x after, xs = before ++ x :: after ∧ (∀ y ∈ before, ∃ b, f y = .ok b) ∧ f x = .error e := by
  rw [← faultOf_eq_some, faultOf_mapM, List.findSome?_eq_some_iff]
  simp only [faultOf_eq_none, faultOf_eq_some]
  constructor
  · rintro ⟨before, x, after, hsplit, hx, hbefore⟩
    exact ⟨before, x, after, hsplit, hbefore, hx⟩
  · rintro ⟨before, x, after, hsplit, hbefore, hx⟩
    exact ⟨before, x, after, hsplit, hx, hbefore⟩

theorem mapM_eq_some_iff {f : α → Option β} {ys : List β} : ∀ {xs : List α},
    xs.mapM f = some ys ↔ List.Forall₂ (fun x y => f x = some y) xs ys := by
  intro xs
  induction xs generalizing ys with
  | nil => cases ys <;> simp
  | cons x xs ih =>
    rw [List.mapM_cons, List.forall₂_cons_left_iff]
    cases hx : f x with
    | none => simp
    | some y => simp [Option.bind_eq_some_iff, ih, eq_comm (a := ys)]

/-- What items that match one by one have in common is the same for the lists. -/
theorem map_eq_of_forall₂ {γ : Type} {R : α → β → Prop} {f : α → γ} {g : β → γ} (hR : ∀ a b, R a b → f a = g b)
    {xs : List α} {ys : List β} (h : List.Forall₂ R xs ys) : xs.map f = ys.map g := by
  have hmap : List.Forall₂ (· = ·) (xs.map f) (ys.map g) :=
    List.forall₂_map_left_iff.2 (List.forall₂_map_right_iff.2 (h.imp hR))
  rwa [List.forall₂_eq_eq_eq] at hmap

theorem findSome?_eq_of_forall₂ {γ : Type} {R : α → β → Prop} {f : α → Option γ} {g : β → Option γ}
    (hR : ∀ a b, R a b → f a = g b) {xs : List α} {ys : List β} (h : List.Forall₂ R xs ys) :
    xs.findSome? f = ys.findSome? g := by
  have hmap := congrArg (List.findSome? id) (map_eq_of_forall₂ hR h)
  rwa [List.findSome?_map, List.findSome?_map] at hmap

/-- The first item that has what is sought, where it is known which items have what. -/
theorem findSome?_eq_some_iff_of_mem {f : α → Option β} {P : α → β → Prop} {xs : List α}
    (hf : ∀ x ∈ xs, ∀ b, f x = some b ↔ P x b) {b : β} : xs.findSome? f = some b ↔
      ∃ before x after, xs = before ++ x :: after ∧ (∀ y ∈ before, ∀ c, ¬ P y c) ∧ P x b := by
  rw [List.findSome?_eq_some_iff]
  constructor
  · rintro ⟨before, x, after, hsplit, hx, hbefore⟩
    refine ⟨before, x, after, hsplit, fun y hy c hc => ?_, (hf x (by simp [hsplit]) b).1 hx⟩
    rw [← hf y (by simp [hsplit, hy]), hbefore y hy] at hc
    cases hc
  · rintro ⟨before, x, after, hsplit, hbefore, hx⟩
    refine ⟨before, x, after, hsplit, (hf x (by simp [hsplit]) b).2 hx, fun y hy => ?_⟩
    exact Option.eq_none_iff_forall_ne_some.2 fun c hc => hbefore y hy c ((hf y (by simp [hsplit, hy]) c).1 hc)

theorem exists_forall₂_iff {R : α → β → Prop} : ∀ {xs : List α},
    (∃ ys, List.Forall₂ R xs ys) ↔ ∀ x ∈ xs, ∃ y, R x y
  | [] => by simp
  | x :: xs => by
    have ih : (∃ ys, List.Forall₂ R xs ys) ↔ ∀ x ∈ xs, ∃ y, R x y := exists_forall₂_iff
    rw [List.forall_mem_cons, ← ih]
    constructor
    · rintro ⟨_, _ | ⟨hx, hxs⟩⟩
      exact ⟨⟨_, hx⟩, _, hxs⟩
    · rintro ⟨⟨y, hx⟩, ys, hxs⟩
      exact ⟨y :: ys, .cons hx hxs⟩

theorem exists_of_mem_forall₂ {R : α → β → Prop} {xs : List α} {ys : List β} (h : List.Forall₂ R xs ys) {y : β}
    (hy : y ∈ ys) : ∃ x ∈ xs, R x y := by
  induction h with
  | nil => cases hy
  | cons hx _ ih =>
    rcases List.mem_cons.1 hy with rfl | hy
    · exact ⟨_, List.mem_cons_self, hx⟩
    · obtain ⟨x, hmem, hxy⟩ := ih hy
      exact ⟨x, List.mem_cons_of_mem _ hmem, hxy⟩

/-- Items match through what is between them. -/
theorem forall₂_comp {γ : Type} {R : α → β → Prop} {S : β → γ → Prop} : ∀ {xs : List α} {ys : List β} {zs : List γ},
    List.Forall₂ R xs ys → List.Forall₂ S ys zs → List.Forall₂ (fun x z => ∃ y, R x y ∧ S y z) xs zs
  | _, _, _, .nil, .nil => .nil
  | _, _, _, .cons hxy hxs, .cons hyz hys => .cons ⟨_, hxy, hyz⟩ (forall₂_comp hxs hys)

theorem forall₂_singleton_left {R : α → β → Prop} {a : α} {ys : List β} :
    List.Forall₂ R [a] ys ↔ ∃ b, R a b ∧ ys = [b] := by
  simp [List.forall₂_cons_left_iff]

theorem find?_eq_none_of_not_mem {key : String} {xs : List (String × α)} (h : key ∉ xs.map (·.1)) :
    xs.find? (·.1 == key) = none :=
  List.find?_eq_none.2 fun x hx heq => h (List.mem_map.2 ⟨x, hx, beq_iff_eq.1 heq⟩)

/-- What is found under a key matches, where items with the same keys do. -/
theorem rel_find?_of_forall₂ {R : String → α → β → Prop} {xs : List (String × α)} {ys : List (String × β)}
    (h : List.Forall₂ (fun x y => x.1 = y.1 ∧ R x.1 x.2 y.2) xs ys) (key : String) :
    Option.Rel (R key) ((xs.find? (·.1 == key)).map (·.2)) ((ys.find? (·.1 == key)).map (·.2)) := by
  induction h with
  | nil => exact .none
  | @cons x y xs ys hxy _ ih =>
    obtain ⟨hkey, hxy⟩ := hxy
    by_cases hfirst : x.1 = key
    · rw [List.find?_cons_of_pos (by simpa using hfirst), List.find?_cons_of_pos (by simpa [← hkey] using hfirst)]
      exact .some (hfirst ▸ hxy)
    · rw [List.find?_cons_of_neg (by simpa using hfirst), List.find?_cons_of_neg (by simpa [← hkey] using hfirst)]
      exact ih

theorem forall₂_getD_of_rel {R : α → β → Prop} {xs : Option (List α)} {ys : Option (List β)}
    (h : Option.Rel (List.Forall₂ R) xs ys) : List.Forall₂ R (xs.getD []) (ys.getD []) := by
  cases h with
  | none => exact .nil
  | some h => exact h

theorem exists_of_mem_mapM {f : α → Except ε β} {xs : List α} {ys : List β} (h : xs.mapM f = .ok ys) {y : β}
    (hy : y ∈ ys) : ∃ x ∈ xs, f x = .ok y := exists_of_mem_forall₂ (forall₂_of_mapM h) hy

theorem mapM_congr_forall₂ {γ : Type} {f : α → Except ε γ} {g : β → Except ε γ} {xs : List α} {ys : List β}
    (h : List.Forall₂ (fun x y => f x = g y) xs ys) : xs.mapM f = ys.mapM g := by
  induction h with
  | nil => rfl
  | cons hx _ ih => rw [List.mapM_cons, List.mapM_cons, hx, ih]

/-! ### Groups -/

/-- The items of all groups in order, each with the key of its group. -/
def keyed (groups : List (String × List α)) : List (String × α) := groups.flatMap fun g => g.2.map (g.1, ·)

/-- Groups match item by item. -/
theorem forall₂_keyed {R : α → β → Prop} {groups : List (String × List α)} {others : List (String × List β)}
    (h : List.Forall₂ (fun g g' => g.1 = g'.1 ∧ List.Forall₂ R g.2 g'.2) groups others) :
    List.Forall₂ (fun x y => x.1 = y.1 ∧ R x.2 y.2) (keyed groups) (keyed others) := by
  refine List.rel_flatMap h fun g g' hg => ?_
  obtain ⟨hkey, hitems⟩ := hg
  exact List.forall₂_map_left_iff.2 (List.forall₂_map_right_iff.2 (hitems.imp fun _ _ hitem => ⟨hkey, hitem⟩))

/-- Where each key has one group, the items with a key are those of its group. -/
theorem map_filter_keyed (key : String) : ∀ {groups : List (String × List α)}, (groups.map (·.1)).Nodup →
    ((keyed groups).filter (·.1 == key)).map (·.2) = ((groups.find? (·.1 == key)).map (·.2)).getD []
  | [], _ => rfl
  | g :: groups, h => by
    rw [List.map_cons, List.nodup_cons] at h
    have ih := map_filter_keyed key h.2
    rw [keyed, List.flatMap_cons, ← keyed, List.filter_append, List.map_append, ih]
    by_cases hg : g.1 = key
    · rw [find?_eq_none_of_not_mem (hg ▸ h.1), List.find?_cons_of_pos (by simpa using hg)]
      simp [hg, List.filter_map, Function.comp_def]
    · rw [List.find?_cons_of_neg (by simpa using hg)]
      simp [hg, List.filter_map, Function.comp_def]

theorem mapM_map_key (f : String → α → Except ε β) (key : String) : ∀ xs : List α,
    ((xs.map (key, ·)).mapM fun x => do return (x.1, ← f x.1 x.2)) = (xs.mapM (f key)).map (·.map (key, ·))
  | [] => rfl
  | x :: xs => by
    rw [List.map_cons, List.mapM_cons, List.mapM_cons, mapM_map_key f key xs]
    cases f key x with
    | error e => rfl
    | ok y => cases xs.mapM (f key) <;> rfl

/-- **Groups that are traversed one after another are traversed as one list.** -/
theorem map_keyed_mapM (f : String → α → Except ε β) : ∀ groups : List (String × List α),
    Except.map keyed (groups.mapM fun g => do return (g.1, ← g.2.mapM (f g.1))) =
      (keyed groups).mapM fun x => do return (x.1, ← f x.1 x.2)
  | [] => rfl
  | g :: groups => by
    have ih := map_keyed_mapM f groups
    rw [keyed, List.flatMap_cons, ← keyed, List.mapM_append, mapM_map_key, ← ih, List.mapM_cons]
    cases g.2.mapM (f g.1) with
    | error e => rfl
    | ok ys => cases groups.mapM fun g => (do return (g.1, ← g.2.mapM (f g.1)) : Except ε (String × List β)) <;> rfl

theorem faultOf_mapM_keyed (f : String → α → Except ε β) (xs : List (String × α)) :
    faultOf (xs.mapM fun x => do return (x.1, ← f x.1 x.2)) = xs.findSome? fun x => faultOf (f x.1 x.2) := by
  have hitem : ∀ x : String × α, faultOf (do return (x.1, ← f x.1 x.2)) = faultOf (f x.1 x.2) := fun x =>
    faultOf_map (x.1, ·) _
  simp only [faultOf_mapM, hitem]

/-- They fail as the first item that fails. -/
theorem faultOf_mapM_groups (f : String → α → Except ε β) (groups : List (String × List α)) :
    faultOf (groups.mapM fun g => do return (g.1, ← g.2.mapM (f g.1))) =
      (keyed groups).findSome? fun x => faultOf (f x.1 x.2) := by
  rw [← faultOf_map keyed, map_keyed_mapM, faultOf_mapM_keyed]

end StepChain
