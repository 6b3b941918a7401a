import StepChain.Proofs.Path.Descent
import StepChain.Proofs.Wiring.Linear
/-!
# Where references are placed

A reference is placed in a directory if the result is the directory and then the reference, both in normal form
(`Path.Placed`).  Joining places every reference that never climbs (`Path.placed_join`), so outputs stay in the
directories that they are made for, and two of them are one only if their destinations are one and, of staged outputs,
the steps too (`Output.placed_apart`).
-/
namespace StepChain

open StepChain.Path (IsName NonClimbing)

namespace Path

/-- `p` is the directory `dir` and then the reference, without its leading slashes, whatever the directory looks like. -/
structure Placed (dir : Path) (reference : String) (p : Path) : Prop where
  components : p.normalComponents = dir.normalComponents ++ normalComponents ⟨rootless reference⟩
  written : p = ofComponents (dir.normalComponents ++ normalComponents ⟨rootless reference⟩)
  inside : ∀ cwd, LiesIn cwd dir p

theorem placed_join (dir : Path) {x : String} (hx : NonClimbing ⟨rootless x⟩) :
    Placed dir x (dir.join ⟨rootless x⟩).normal := by
  have hjoin := normalComponents_join_rootless dir hx
  constructor
  · rw [normalComponents_normal, hjoin]
  · rw [normal, hjoin]
  · exact walk_prefix_join_rootless dir hx

end Path

namespace Output

variable (dir : Path) {step step' x y : String}

theorem placed_final (hx : NonClimbing ⟨rootless x⟩) : Path.Placed dir x ⟨final dir x⟩ := by
  rw [final, Path.mk_text (Path.normal _)]
  exact Path.placed_join dir hx

theorem placed_staged (step : String) (hx : NonClimbing ⟨rootless x⟩) :
    Path.Placed (dir.join ⟨step⟩) x ⟨staged dir step x⟩ := by
  rw [staged, Path.mk_text (Path.normal _)]
  exact Path.placed_join (dir.join ⟨step⟩) hx

theorem final_eq_iff (hx : NonClimbing ⟨rootless x⟩) (hy : NonClimbing ⟨rootless y⟩) :
    final dir x = final dir y ↔ Path.normal ⟨rootless x⟩ = Path.normal ⟨rootless y⟩ := by
  rw [final, final, Path.text_inj, Path.normal_join_rootless_eq_iff dir hx hy]

theorem staged_eq_iff (hstep : IsName step) (hstep' : IsName step') (hx : NonClimbing ⟨rootless x⟩)
    (hy : NonClimbing ⟨rootless y⟩) :
    staged dir step x = staged dir step' y ↔ step = step' ∧ Path.normal ⟨rootless x⟩ = Path.normal ⟨rootless y⟩ := by
  rw [staged, staged, Path.text_inj, Path.normal_eq_iff, Path.normal_eq_iff, Path.normalComponents_join_rootless _ hx,
    Path.normalComponents_join_rootless _ hy, Path.normalComponents_join_name dir hstep,
    Path.normalComponents_join_name dir hstep', List.append_assoc, List.append_assoc, List.append_cancel_left_eq]
  simp

/-- **Outputs stay where they are placed, and none is made for two destinations.**  A final output is the destination
directory and then the block's destination, a staged one has the step's name between the two; so neither leaves its
directory.  Equal outputs come from destinations of one normal form, equal staged ones also from steps of one name. -/
theorem placed_apart (hstep : IsName step) (hstep' : IsName step') (hx : NonClimbing ⟨rootless x⟩)
    (hy : NonClimbing ⟨rootless y⟩) :
    Path.Placed dir x ⟨final dir x⟩ ∧
    (final dir x = final dir y ↔ Path.normal ⟨rootless x⟩ = Path.normal ⟨rootless y⟩) ∧
    Path.Placed (dir.join ⟨step⟩) x ⟨staged dir step x⟩ ∧
    (dir.join ⟨step⟩).normalComponents = dir.normalComponents ++ [.name step] ∧
    (staged dir step x = staged dir step' y ↔
      step = step' ∧ Path.normal ⟨rootless x⟩ = Path.normal ⟨rootless y⟩) :=
  ⟨placed_final dir hx, final_eq_iff dir hx hy, placed_staged dir step hx,
    Path.normalComponents_join_name dir hstep, staged_eq_iff dir hstep hstep' hx hy⟩

/-- A directory above the working one, and a destination that is written with slashes in front and in two ways. -/
theorem placed_apart_climbingDirectory :
    (IsName "concat" ∧ IsName "..tmp" ∧ NonClimbing ⟨rootless "/\\/lib/../site.js"⟩ ∧
      NonClimbing ⟨rootless "./site.js"⟩) ∧
    (Path.LiesIn ["work"] ⟨"out/../.."⟩ ⟨final ⟨"out/../.."⟩ "/\\/lib/../site.js"⟩ ∧
      final ⟨"out/../.."⟩ "/\\/lib/../site.js" = "../site.js") ∧
    final ⟨"out/../.."⟩ "/\\/lib/../site.js" = final ⟨"out/../.."⟩ "./site.js" ∧
    staged ⟨"out/../.."⟩ "concat" "/\\/lib/../site.js" = "../concat/site.js" ∧
    staged ⟨"out/../.."⟩ "concat" "/\\/lib/../site.js" ≠ staged ⟨"out/../.."⟩ "..tmp" "./site.js" := by
  have hnames : IsName "concat" ∧ IsName "..tmp" := by decide +kernel
  have hx : NonClimbing ⟨rootless "/\\/lib/../site.js"⟩ := by decide +kernel
  have hy : NonClimbing ⟨rootless "./site.js"⟩ := by decide +kernel
  obtain ⟨hfinal, hsame, hstaged, -, happart⟩ := placed_apart ⟨"out/../.."⟩ hnames.1 hnames.2 hx hy
  have hnormal : Path.normal ⟨rootless "/\\/lib/../site.js"⟩ = Path.normal ⟨rootless "./site.js"⟩ := by decide +kernel
  refine ⟨⟨hnames.1, hnames.2, hx, hy⟩, ⟨hfinal.inside ["work"], ?_⟩, hsame.2 hnormal, ?_, ?_⟩
  · exact congrArg Path.text (hfinal.written.trans (by decide +kernel))
  · exact congrArg Path.text (hstaged.written.trans (by decide +kernel))
  · exact fun heq => absurd (happart.1 heq).1 (by decide)

end Output

end StepChain
