import StepChain.Proofs.Project.Declarations
/-!
# Options of post-processors in a project file

Options are tables.  What is looked at is their JSON image, and a float without a finite value has the image of options
that are missing.  So every other value that is no table is refused (`Project.optionsTaken_iff`), and the first entry
with such a value is the fault of the file; `nan` and `inf` pass, and count as no options
(`Project.ofText_postOptions`).
-/
namespace StepChain

namespace Toml.Value

theorem isObject_toJson (v : Value) : v.toJson.isObject = v.isTable := by
  cases v with
  | float value => cases value <;> rfl
  | _ => rfl

/-- Only a float without a finite value has no image of its own. -/
theorem isNull_toJson {v : Value} : v.toJson.isNull = true ↔ v = .float none := by
  cases v with
  | float value => cases value <;> simp [toJson, Json.isNull]
  | _ => simp [toJson, Json.isNull]

end Toml.Value

namespace Project

open Toml (Table Value)

/-- The entries of `post` as written, each with its block type; none if one of them is no entry with a step. -/
def written? (p : Project) : Option (List (String × List (String × Option Value))) :=
  p.posts.mapM fun entry => (entry.2.array?.bind (·.mapM postOf?)).map (entry.1, ·)

/-- Options that are no fault: none, a table, or a float without a finite value. -/
def OptionsTaken (options : Option Value) : Prop := ∀ v, options = some v → v.isTable = true ∨ v = .float none

/-! ### One entry -/

theorem optionsTaken_iff {options : Option Value} :
    OptionsTaken options ↔ (optionsJson options).isObject ∨ (optionsJson options).isNull := by
  cases options with
  | none => simp [OptionsTaken, optionsJson, Json.isNull]
  | some v =>
    rw [optionsJson, Option.map_some, Option.getD_some, Value.isObject_toJson, Value.isNull_toJson]
    simp [OptionsTaken]

variable {blockType : String} {post : String × Option Value}

theorem checkedPost_of_taken (h : OptionsTaken post.2) :
    checkedPost blockType post = .ok ⟨post.1, .options (optionsJson post.2)⟩ := if_pos (optionsTaken_iff.1 h)

theorem checkedPost_of_not_taken (h : ¬ OptionsTaken post.2) :
    checkedPost blockType post = .error (.optionsNotTable blockType post.1) := if_neg (optionsTaken_iff.not.1 h)

theorem faultOf_checkedPost : faultOf (checkedPost blockType post) = none ↔ OptionsTaken post.2 := by
  by_cases h : OptionsTaken post.2
  · simp [checkedPost_of_taken h, faultOf, h]
  · simp [checkedPost_of_not_taken h, faultOf, h]

theorem faultOf_checkedPost_eq_some {fault : ProjectFault} : faultOf (checkedPost blockType post) = some fault ↔
    ¬ OptionsTaken post.2 ∧ fault = .optionsNotTable blockType post.1 := by
  by_cases h : OptionsTaken post.2
  · simp [checkedPost_of_taken h, faultOf, h]
  · simp [checkedPost_of_not_taken h, faultOf, h, eq_comm]

instance : DecidablePred OptionsTaken := fun _ => decidable_of_iff _ optionsTaken_iff.symm

/-! ### All entries -/

section

variable {p : Project} {written : List (String × List (String × Option Value))}

/-- Where every entry has a step, only its options are left to check. -/
theorem mapM_postsOf (hwritten : p.written? = some written) :
    (p.posts.mapM fun entry => (do return (entry.1, ← postsOf entry) : Except ProjectFault (String × List Post))) =
      written.mapM fun w => do return (w.1, ← w.2.mapM (checkedPost w.1)) := by
  refine mapM_congr_forall₂ ((mapM_eq_some_iff.1 hwritten).imp fun entry w hw => ?_)
  obtain ⟨posts, hposts, rfl⟩ := Option.map_eq_some_iff.1 hw
  simp only [postsOf, hposts]

/-- Then the declarations are made of the chains and of the entries in order. -/
theorem declarations_of_written (hchains : ∀ entry ∈ p.steps, ∃ chain, chainOf entry = .ok chain)
    (hwritten : p.written? = some written) :
    p.declarations.map (·.posts) =
      (keyed written).mapM fun x => do return (x.1, ← checkedPost x.1 x.2) := by
  obtain ⟨chains, hsteps⟩ : ∃ chains, (p.steps.mapM fun entry =>
      (do return (entry.1, ← chainOf entry) : Except ProjectFault (String × List ChainEntry))) = .ok chains :=
    exists_mapM_keyed_iff.2 hchains
  rw [declarations, hsteps, ok_bind, mapM_postsOf hwritten, ← map_keyed_mapM]
  cases written.mapM fun w =>
      (do return (w.1, ← w.2.mapM (checkedPost w.1)) : Except ProjectFault (String × List Post)) with
  | error fault => rfl
  | ok posts =>
    refine congrArg Except.ok ((Declarations.posts_foldl_groups posts _).trans ?_)
    rw [Declarations.posts_foldl_withChain, Declarations.empty, List.nil_append]

/-- Reading a file with a layout that can be used is left to fail only as its declarations do. -/
theorem ofText_of_read {text : String} (hread : (Table.ofText? text).bind ofTable? = some p)
    (hlayout : p.layout.check = .ok ()) : ofText text = p.declarations.map fun _ => p := by
  simp only [ofText, hread, check, hlayout]
  cases p.declarations <;> rfl

theorem faultOf_declarations (hchains : ∀ entry ∈ p.steps, ∃ chain, chainOf entry = .ok chain)
    (hwritten : p.written? = some written) :
    faultOf p.declarations = (keyed written).findSome? fun x => faultOf (checkedPost x.1 x.2) := by
  rw [← faultOf_map (·.posts), declarations_of_written hchains hwritten, faultOf_mapM_keyed]

theorem posts_of_taken (hchains : ∀ entry ∈ p.steps, ∃ chain, chainOf entry = .ok chain)
    (hwritten : p.written? = some written) (htaken : ∀ x ∈ keyed written, OptionsTaken x.2.2) :
    ∃ d, p.declarations = .ok d ∧
      d.posts = (keyed written).map fun x => (x.1, ⟨x.2.1, .options (optionsJson x.2.2)⟩) := by
  refine exists_of_map_eq_ok ((declarations_of_written hchains hwritten).trans (mapM_eq_ok_iff.2 ?_))
  refine List.forall₂_map_right_iff.2 (List.forall₂_same.2 fun x hx => ?_)
  rw [checkedPost_of_taken (htaken x hx)]
  rfl

/-- **Which options are refused**, where the rest of a project file is well formed.  The first entry whose options are
neither a table nor a float without a finite value is the fault.  A file without one is accepted, and declares a
post-processor for each entry in order; with such a float it is that of an entry without options. -/
theorem ofText_postOptions {text : String} (hread : (Table.ofText? text).bind ofTable? = some p)
    (hlayout : p.layout.check = .ok ()) (hchains : ∀ entry ∈ p.steps, ∃ chain, chainOf entry = .ok chain)
    (hwritten : p.written? = some written) :
    (ofText text = .ok p ↔ ∀ x ∈ keyed written, OptionsTaken x.2.2) ∧
    (∀ fault, ofText text = .error fault ↔ ∃ before blockType post after,
      keyed written = before ++ (blockType, post) :: after ∧ (∀ x ∈ before, OptionsTaken x.2.2) ∧
        ¬ OptionsTaken post.2 ∧ fault = .optionsNotTable blockType post.1) ∧
    (ofText text = .ok p → ∃ d, p.declarations = .ok d ∧
      d.posts = (keyed written).map fun x => (x.1, ⟨x.2.1, .options (optionsJson x.2.2)⟩)) := by
  have htext := ofText_of_read hread hlayout
  have hfault := faultOf_declarations hchains hwritten
  have haccepted : ofText text = .ok p ↔ ∀ x ∈ keyed written, OptionsTaken x.2.2 := by
    constructor
    · intro hok
      obtain ⟨d, hd, -⟩ := exists_of_map_eq_ok (htext.symm.trans hok)
      rw [hd] at hfault
      intro x hx
      exact faultOf_checkedPost.1 (List.findSome?_eq_none_iff.1 hfault.symm x hx)
    · intro htaken
      obtain ⟨d, hd, -⟩ := posts_of_taken hchains hwritten htaken
      rw [htext, hd]
      rfl
  refine ⟨haccepted, fun fault => ?_, fun hok => posts_of_taken hchains hwritten (haccepted.1 hok)⟩
  rw [← faultOf_eq_some, htext, faultOf_map, hfault, List.findSome?_eq_some_iff]
  simp only [faultOf_checkedPost, faultOf_checkedPost_eq_some]
  constructor
  · rintro ⟨before, ⟨blockType, post⟩, after, hsplit, ⟨hrefused, hcause⟩, hbefore⟩
    exact ⟨before, blockType, post, after, hsplit, hbefore, hrefused, hcause⟩
  · rintro ⟨before, blockType, post, after, hsplit, hbefore, hrefused, hcause⟩
    exact ⟨before, (blockType, post), after, hsplit, ⟨hrefused, hcause⟩, hbefore⟩

end

/-- Two post-processors, the first with options that are no number. -/
def unnumbered (second : String) : String :=
  "[paths]\ndest=\"d\"\nstaging=\"s\"\n[steps]\njs=[\"concat\"]\n" ++
    "[[post.js]]\nstep=\"concat\"\noptions=nan\n[[post.css]]\nstep=\"cssmin\"\n" ++ second

/-- Whether these are the entries of `unnumbered`, the second with options as asked. -/
def areUnnumbered (asked : Option Value → Bool) : List (String × String × Option Value) → Bool
  | [("js", "concat", some (.float none)), ("css", "cssmin", options)] => asked options
  | _ => false

/-- Whether a file is well formed but for options, with entries as asked. -/
def asks (asked : Option Value → Bool) (text : String) : Bool :=
  ((Table.ofText? text).bind ofTable?).any fun p => (faultOf p.layout.check).isNone &&
    p.steps.all (fun entry => (faultOf (chainOf entry)).isNone) &&
    p.written?.any fun written => areUnnumbered asked (keyed written)

theorem exists_of_asks {asked : Option Value → Bool} {text : String} (h : asks asked text = true) :
    ∃ p written options, (Table.ofText? text).bind ofTable? = some p ∧ p.layout.check = .ok () ∧
      (∀ entry ∈ p.steps, ∃ chain, chainOf entry = .ok chain) ∧ p.written? = some written ∧
      keyed written = [("js", "concat", some (.float none)), ("css", "cssmin", options)] ∧ asked options = true := by
  obtain ⟨p, hread, hp⟩ := (Option.any_eq_true _ _).1 h
  simp only [Bool.and_eq_true, List.all_eq_true, Option.isNone_iff_eq_none, faultOf_eq_none, Option.any_eq_true] at hp
  obtain ⟨⟨⟨⟨⟩, hlayout⟩, hchains⟩, written, hwritten, hasked⟩ := hp
  unfold areUnnumbered at hasked
  split at hasked
  case h_1 options hkeyed => exact ⟨p, written, options, hread, hlayout, hchains, hwritten, hkeyed, hasked⟩
  case h_2 => cases hasked

/-- Options that are no number count as none.  Those of another entry that are an integer are the fault. -/
theorem ofText_postOptions_unnumbered :
    (∃ p d, ofText (unnumbered "") = .ok p ∧ p.declarations = .ok d ∧
      d.posts = [("js", ⟨"concat", .options .null⟩), ("css", ⟨"cssmin", .options .null⟩)]) ∧
    ofText (unnumbered "options=3\n") = .error (.optionsNotTable "css" "cssmin") := by
  constructor
  · have hasks : asks (·.isNone) (unnumbered "") = true := by decide +kernel
    obtain ⟨p, written, options, hread, hlayout, hchains, hwritten, hkeyed, hnone⟩ := exists_of_asks hasks
    obtain rfl := Option.isNone_iff_eq_none.1 hnone
    obtain ⟨haccepted, -, hposts⟩ := ofText_postOptions hread hlayout hchains hwritten
    rw [hkeyed] at haccepted hposts
    have hok := haccepted.2 (by simp [OptionsTaken])
    obtain ⟨d, hd, hposts⟩ := hposts hok
    exact ⟨p, d, hok, hd, hposts⟩
  · have hasks : asks (fun options => !decide (OptionsTaken options)) (unnumbered "options=3\n") = true := by
      decide +kernel
    obtain ⟨p, written, options, hread, hlayout, hchains, hwritten, hkeyed, hrefused⟩ := exists_of_asks hasks
    obtain ⟨-, hfault, -⟩ := ofText_postOptions hread hlayout hchains hwritten
    exact (hfault _).2 ⟨[_], _, _, [], hkeyed, by simp [OptionsTaken], by simpa using hrefused, rfl⟩

/-- Not all options that are no table are refused. -/
theorem exists_nonTable_accepted : ¬ ∀ (text : String) (p : Project)
    (written : List (String × List (String × Option Value))), (Table.ofText? text).bind ofTable? = some p →
    p.layout.check = .ok () → (∀ entry ∈ p.steps, ∃ chain, chainOf entry = .ok chain) → p.written? = some written →
    (∃ x ∈ keyed written, ∃ v, x.2.2 = some v ∧ v.isTable = false) → ∃ fault, ofText text = .error fault := by
  intro hall
  have hasks : asks (·.isNone) (unnumbered "") = true := by decide +kernel
  obtain ⟨p, written, options, hread, hlayout, hchains, hwritten, hkeyed, -⟩ := exists_of_asks hasks
  obtain ⟨fault, hfault⟩ := hall _ p written hread hlayout hchains hwritten ⟨_, hkeyed ▸ List.mem_cons_self, _, rfl, rfl⟩
  have haccepted : (faultOf (ofText (unnumbered ""))).isNone = true := by decide +kernel
  rw [hfault] at haccepted
  cases haccepted

end Project

end StepChain
