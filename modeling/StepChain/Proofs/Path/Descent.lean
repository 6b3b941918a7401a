import StepChain.Proofs.Path.Canonical
/-!
# Paths that go down

A normal form and its components say the same (`normal_eq_iff`).  So where a reference that never climbs is joined, the
normal form is that of the directory and then the reference's own (`normalComponents_join_rootless`): the result lies in
the directory, and no two references meet there unless they have one normal form.
-/
namespace StepChain.Path

variable {p q : Path} {x y : String}

theorem normalComponents_normal (p : Path) : p.normal.normalComponents = p.normalComponents :=
  normalComponents_eq_of_walk fun dir _ => walk_normal p dir

theorem normal_eq_iff : p.normal = q.normal ↔ p.normalComponents = q.normalComponents := by
  constructor
  · intro h
    rw [← normalComponents_normal p, h, normalComponents_normal]
  · intro h
    rw [normal, normal, h]

theorem text_inj : p.text = q.text ↔ p = q := by
  cases p
  cases q
  simp

theorem normalComponents_rootless (hx : NonClimbing ⟨rootless x⟩) :
    normalComponents ⟨rootless x⟩ = (below ⟨rootless x⟩).map .name := by
  have h := normalComponents_join (p := ⟨""⟩) hx (isAbsolute_rootless x)
  rwa [join_of_isEmpty rfl, show normalComponents ⟨""⟩ = [] by decide, List.nil_append] at h

/-- **A reference that never climbs is added to the directory as it is.** -/
theorem normalComponents_join_rootless (p : Path) (hx : NonClimbing ⟨rootless x⟩) :
    (p.join ⟨rootless x⟩).normalComponents = p.normalComponents ++ normalComponents ⟨rootless x⟩ := by
  rw [normalComponents_join hx (isAbsolute_rootless x), normalComponents_rootless hx]

theorem normal_join_rootless_eq_iff (p : Path) (hx : NonClimbing ⟨rootless x⟩) (hy : NonClimbing ⟨rootless y⟩) :
    (p.join ⟨rootless x⟩).normal = (p.join ⟨rootless y⟩).normal ↔ normal ⟨rootless x⟩ = normal ⟨rootless y⟩ := by
  rw [normal_eq_iff, normal_eq_iff, normalComponents_join_rootless p hx, normalComponents_join_rootless p hy,
    List.append_cancel_left_eq]

theorem walk_prefix_join_rootless (p : Path) (hx : NonClimbing ⟨rootless x⟩) (dir : List String) :
    p.walk dir <+: (p.join ⟨rootless x⟩).normal.walk dir := by
  rw [walk_normal, walk_join, walk_nonClimbing hx (isAbsolute_rootless x)]
  exact List.prefix_append _ _

end StepChain.Path
