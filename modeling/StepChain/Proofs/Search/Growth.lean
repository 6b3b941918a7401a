import StepChain.Proofs.Search
/-!
# Searches while files are added

When files are added and none goes away, a reference that led somewhere still does, and it leads to the same path or to
one of the new files (`find_growing`).  The first match may only move to a candidate that was not there before
(`find?_weaker`), and what passes through does so only while nothing is there.
-/
namespace StepChain

section

variable {α : Type} {test weaker : α → Bool} (h : ∀ x, test x = true → weaker x = true)

include h

theorem find?_eq_none_of_weaker {xs : List α} (hnone : xs.find? weaker = none) : xs.find? test = none := by
  rw [List.find?_eq_none] at hnone ⊢
  exact fun x hx htest => hnone x hx (h x htest)

theorem find?_weaker {xs : List α} {x : α} (hfound : xs.find? weaker = some x) :
    xs.find? test = some x ∨ test x = false := by
  cases hx : test x with
  | false => exact .inr rfl
  | true =>
    -- what stands before the first match of the weaker test fails that test, so it fails both
    obtain ⟨-, before, after, rfl, hbefore⟩ := List.find?_eq_some_iff_append.1 hfound
    refine .inl (List.find?_eq_some_iff_append.2 ⟨hx, before, after, rfl, fun a ha => ?_⟩)
    have hweaker := hbefore a ha
    cases htest : test a with
    | false => rfl
    | true => simp [h a htest] at hweaker

end

namespace Search

variable (s : Search) {page : Page} {block : Block} {reference : String}

section

variable {before after : Path → Bool} (h : ∀ p, before p = true → after p = true)

include h

theorem exists_firstPresent_growing {p : Path} (hp : s.firstPresent before page reference = .ok p) :
    ∃ q, s.firstPresent after page reference = .ok q := by
  cases hafter : s.firstPresent after page reference with
  | ok q => exact ⟨q, rfl⟩
  | error e =>
    obtain ⟨hnone, hstrict, -⟩ := (s.firstPresent_eq_error after).1 hafter
    have hbefore := (s.firstPresent_eq_error before).2 ⟨find?_eq_none_of_weaker h hnone, hstrict, rfl⟩
    rw [hp] at hbefore
    cases hbefore

theorem firstPresent_growing {p : Path} (hp : s.firstPresent after page reference = .ok p) :
    s.firstPresent before page reference = .ok p ∨ after p = true ∧ before p = false := by
  rcases (s.firstPresent_eq_ok after).1 hp with hfound | ⟨hnone, hpassed⟩
  · rcases find?_weaker h hfound with hsame | hnew
    · exact .inl ((s.firstPresent_eq_ok before).2 (.inl hsame))
    · exact .inr ⟨List.find?_some hfound, hnew⟩
  · exact .inl ((s.firstPresent_eq_ok before).2 (.inr ⟨find?_eq_none_of_weaker h hnone, hpassed⟩))

/-- **A search stays as it is when files are added**, but for what it finds of the new files.  A reference that led
somewhere leads somewhere again; where it leads now it led before, or a new file lies there; and a file that was there
before is found only where it was found before. -/
theorem find_growing (page : Page) (block : Block) (reference : String) :
    (∀ p, s.find before page block reference = .ok p → ∃ q, s.find after page block reference = .ok q) ∧
    (∀ p, s.find after page block reference = .ok p →
      s.find before page block reference = .ok p ∨ after p = true ∧ before p = false) ∧
    ∀ p, s.find after page block reference = .ok p → before p = true →
      s.find before page block reference = .ok p := by
  have hmoves : ∀ p, s.find after page block reference = .ok p →
      s.find before page block reference = .ok p ∨ after p = true ∧ before p = false := by
    intro p hp
    rcases s.find_eq_ok.1 hp with ⟨hoverride, hthere⟩ | ⟨hdefers, hfirst⟩
    · cases hnew : before p with
      | true => exact .inl (s.find_eq_ok.2 (.inl ⟨hoverride, hnew⟩))
      | false => exact .inr ⟨hthere, rfl⟩
    · exact (s.firstPresent_growing h hfirst).imp_left fun hsame => s.find_eq_ok.2 (.inr ⟨hdefers, hsame⟩)
  refine ⟨fun p hp => ?_, hmoves, fun p hp hold => ?_⟩
  · rcases s.find_eq_ok.1 hp with ⟨hoverride, hthere⟩ | ⟨hdefers, hfirst⟩
    · exact ⟨p, s.find_eq_ok.2 (.inl ⟨hoverride, h p hthere⟩)⟩
    · obtain ⟨q, hq⟩ := s.exists_firstPresent_growing h hfirst
      exact ⟨q, s.find_eq_ok.2 (.inr ⟨hdefers, hq⟩)⟩
  · rcases hmoves p hp with hsame | ⟨-, hnew⟩
    · exact hsame
    · rw [hold] at hnew
      cases hnew

end

/-- The same files with two more: one under the first root, before the file that was found, and one that was missing. -/
def grownFiles (p : Path) : Bool := layeredFiles p ∨ p = ⟨"app/scripts/a.js"⟩ ∨ p = ⟨"pages/late.js"⟩

/-- The reference that was found moves to the new file, and the one that was missing is found. -/
theorem find_growing_layered :
    (∀ p, layeredFiles p = true → grownFiles p = true) ∧
    layeredRoots.find layeredFiles layeredPage ⟨"js", "site.js", []⟩ "/scripts/a.js" = .ok ⟨"../lib/scripts/a.js"⟩ ∧
    (∃ q, layeredRoots.find grownFiles layeredPage ⟨"js", "site.js", []⟩ "/scripts/a.js" = .ok q) ∧
    layeredRoots.find grownFiles layeredPage ⟨"js", "site.js", []⟩ "late.js" = .ok ⟨"pages/late.js"⟩ ∧
    (layeredRoots.find layeredFiles layeredPage ⟨"js", "site.js", []⟩ "late.js" = .ok ⟨"pages/late.js"⟩ ∨
      grownFiles ⟨"pages/late.js"⟩ = true ∧ layeredFiles ⟨"pages/late.js"⟩ = false) := by
  have hgrown : ∀ p, layeredFiles p = true → grownFiles p = true := by
    intro p hp
    simp [grownFiles, hp]
  have hfound : layeredRoots.find layeredFiles layeredPage ⟨"js", "site.js", []⟩ "/scripts/a.js" =
      .ok ⟨"../lib/scripts/a.js"⟩ :=
    (find_eq_ok _).2 (.inr ⟨by decide +kernel, (firstPresent_eq_ok _ _).2 (.inl (by decide +kernel))⟩)
  have hlate : layeredRoots.find grownFiles layeredPage ⟨"js", "site.js", []⟩ "late.js" = .ok ⟨"pages/late.js"⟩ :=
    (find_eq_ok _).2 (.inr ⟨by decide +kernel, (firstPresent_eq_ok _ _).2 (.inl (by decide +kernel))⟩)
  exact ⟨hgrown, hfound, (layeredRoots.find_growing hgrown _ _ _).1 _ hfound, hlate,
    (layeredRoots.find_growing hgrown _ _ _).2.1 _ hlate⟩

end Search

end StepChain
