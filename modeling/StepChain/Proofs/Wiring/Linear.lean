import StepChain.Proofs.Wiring.ClosedForm
/-!
# Linear chains

The positions of a block form one line if no mapping overwrites what it reads and no two mappings make one output
(`Linear`).  Outputs are told apart by the names of the steps that make them, so blocks of a type are linear exactly
if the steps of its chain, the last aside, have different names (`positions_linear_iff`); a step that stands twice
before the last position overwrites its own output (`not_linear_of_repeated_step`).
-/
namespace StepChain

open StepChain.Path (IsName NonClimbing)

/-- Whether `p` is `dir` or lies below it, as seen from `cwd`. -/
def Path.LiesIn (cwd : List String) (dir p : Path) : Prop := dir.walk cwd <+: p.walk cwd

instance (cwd : List String) (dir p : Path) : Decidable (Path.LiesIn cwd dir p) :=
  inferInstanceAs (Decidable (_ <+: _))

/-- No mapping reads what it makes, and no two mappings make the same. -/
def Linear (positions : List Position) : Prop :=
  (∀ p ∈ positions, ∀ m ∈ p.mappings, m.dest ∉ m.src) ∧ (positions.flatMap Position.outputs).Nodup

structure DistinctNames (inputs : List String) : Prop where
  named : ∀ x ∈ inputs, (Path.fileName? ⟨x⟩).isSome
  distinct : (inputs.map fun x => Path.fileName? ⟨x⟩).Nodup

structure Targets.Apart (t : Targets) (cwd : List String) : Prop where
  staging : ¬ Path.LiesIn cwd t.dest t.staging
  dest : ¬ Path.LiesIn cwd t.staging t.dest

instance (positions : List Position) : Decidable (Linear positions) := inferInstanceAs (Decidable (_ ∧ _))

/-- A destination that stays in its directory, and sources from outside the two directories with different names. -/
structure Targets.Admits (t : Targets) (cwd : List String) (blockDest : String) (sources : List String) : Prop where
  dest_ne : blockDest ≠ ""
  dest_stays : NonClimbing ⟨rootless blockDest⟩
  names : DistinctNames sources
  not_staged : ∀ s ∈ sources, ¬ Path.LiesIn cwd t.staging ⟨s⟩
  not_final : ∀ s ∈ sources, ¬ Path.LiesIn cwd t.dest ⟨s⟩

namespace Targets

variable {t : Targets} {cwd : List String} {blockDest : String}

/-! ### Outputs of one position -/

/-- **What a step hands on lies in its own directory.** -/
theorem walk_handOn {step : Step} (hstep : IsName step.name) (hdest : NonClimbing ⟨rootless blockDest⟩)
    {inputs : List String} (hinputs : ∀ x ∈ inputs, (Path.fileName? ⟨x⟩).isSome) {x : String}
    (hx : x ∈ t.handOn blockDest inputs step) : t.staging.walk cwd ++ [step.name] <+: Path.walk ⟨x⟩ cwd := by
  cases hmode : step.mode with
  | merged =>
    rw [t.handOn_merged blockDest hmode, List.mem_singleton] at hx
    rw [hx, Output.walk_staged t.staging hstep, Path.walk_nonClimbing hdest (Path.isAbsolute_rootless blockDest)]
    exact List.prefix_append _ _
  | perSource =>
    rw [t.handOn_perSource blockDest hmode] at hx
    obtain ⟨source, hsource, rfl⟩ := List.mem_map.1 hx
    obtain ⟨file, hfile⟩ := Option.isSome_iff_exists.1 (hinputs source hsource)
    rw [Output.stagedFor_eq t.staging step.name hfile,
      Output.walk_inStep t.staging hstep (Path.isName_of_fileName? hfile)]
    exact ⟨[file], by simp⟩

theorem distinctNames_handOn {step : Step} (hstep : IsName step.name) (hdest : NonClimbing ⟨rootless blockDest⟩)
    {inputs : List String} (hinputs : DistinctNames inputs) : DistinctNames (t.handOn blockDest inputs step) := by
  cases hmode : step.mode with
  | merged =>
    rw [t.handOn_merged blockDest hmode]
    constructor
    · intro x hx
      rw [List.mem_singleton.1 hx, Output.fileName?_staged t.staging hstep hdest]
      rfl
    · simp
  | perSource =>
    rw [t.handOn_perSource blockDest hmode]
    constructor
    · intro x hx
      obtain ⟨source, hsource, rfl⟩ := List.mem_map.1 hx
      rw [Output.fileName?_stagedFor t.staging step.name (hinputs.named source hsource)]
      exact hinputs.named source hsource
    · change (fileNames (inputs.map (Output.stagedFor t.staging step.name))).Nodup
      rw [Output.fileNames_map_stagedFor t.staging step.name hinputs.named]
      exact hinputs.distinct

theorem nodup_of_distinctNames {inputs : List String} (h : DistinctNames inputs) : inputs.Nodup :=
  List.Pairwise.of_map _ (fun _ _ hne heq => hne (by rw [heq])) h.distinct

/-! ### Outputs of a chain -/

theorem flatMap_outputs_cons (step next : Step) (rest : List Step) (inputs : List String) :
    (t.wire blockDest (step :: next :: rest) inputs).flatMap Position.outputs = t.handOn blockDest inputs step ++
      (t.wire blockDest (next :: rest) (t.handOn blockDest inputs step)).flatMap Position.outputs := by
  rw [wire, List.flatMap_cons]
  rfl

/-- **Every output lies in the directory of a step that is not the last, or under the destination.** -/
theorem walk_of_mem_outputs (hdest : NonClimbing ⟨rootless blockDest⟩) : ∀ (chain : List Step) (inputs : List String),
    (∀ step ∈ chain, IsName step.name) → DistinctNames inputs →
    ∀ x ∈ (t.wire blockDest chain inputs).flatMap Position.outputs,
      (∃ step ∈ chain.dropLast, t.staging.walk cwd ++ [step.name] <+: Path.walk ⟨x⟩ cwd) ∨
        t.dest.walk cwd <+: Path.walk ⟨x⟩ cwd
  | [], _, _, _, _, hx => by cases hx
  | [step], inputs, _, _, x, hx => by
    rw [wire, List.flatMap_singleton, Position.outputs, List.map_cons, List.map_nil, List.mem_singleton] at hx
    rw [hx, Output.walk_final, Path.walk_nonClimbing hdest (Path.isAbsolute_rootless blockDest)]
    exact .inr (List.prefix_append _ _)
  | step :: next :: rest, inputs, hchain, hinputs, x, hx => by
    have hstep := hchain step List.mem_cons_self
    rw [flatMap_outputs_cons] at hx
    rw [List.dropLast_cons_of_ne_nil (by simp)]
    rcases List.mem_append.1 hx with hx | hx
    · exact .inl ⟨step, List.mem_cons_self, walk_handOn hstep hdest hinputs.named hx⟩
    · rcases walk_of_mem_outputs hdest (next :: rest) _ (fun s hs => hchain s (List.mem_cons_of_mem _ hs))
        (distinctNames_handOn hstep hdest hinputs) x hx with ⟨s, hs, hwalk⟩ | hwalk
      · exact .inl ⟨s, List.mem_cons_of_mem _ hs, hwalk⟩
      · exact .inr hwalk

/-- An output of a step lies in no other step's directory and not under the destination. -/
theorem not_in_both (hapart : t.Apart cwd) {name : String} {x : String}
    (hx : t.staging.walk cwd ++ [name] <+: Path.walk ⟨x⟩ cwd) :
    (∀ other, other ≠ name → ¬ t.staging.walk cwd ++ [other] <+: Path.walk ⟨x⟩ cwd) ∧
      ¬ t.dest.walk cwd <+: Path.walk ⟨x⟩ cwd := by
  constructor
  · intro other hne hother
    have heq := List.IsPrefix.eq_of_length (List.prefix_of_prefix_length_le hother hx (by simp)) (by simp)
    exact hne (by simpa using heq)
  · intro hdest
    have hstaging : t.staging.walk cwd <+: Path.walk ⟨x⟩ cwd := (List.prefix_append _ _).trans hx
    rcases List.prefix_or_prefix_of_prefix hdest hstaging with h | h
    · exact hapart.staging h
    · exact hapart.dest h

/-- **Steps of different names never make one output twice.** -/
theorem nodup_outputs (hapart : t.Apart cwd) (hdest : NonClimbing ⟨rootless blockDest⟩) :
    ∀ (chain : List Step) (inputs : List String), (∀ step ∈ chain, IsName step.name) → DistinctNames inputs →
    (chain.dropLast.map Step.name).Nodup → ((t.wire blockDest chain inputs).flatMap Position.outputs).Nodup
  | [], _, _, _, _ => List.nodup_nil
  | [step], inputs, _, _, _ => by
    rw [wire, List.flatMap_singleton, Position.outputs, List.map_cons, List.map_nil]
    simp
  | step :: next :: rest, inputs, hchain, hinputs, hnames => by
    have hstep := hchain step List.mem_cons_self
    have hrest : ∀ s ∈ next :: rest, IsName s.name := fun s hs => hchain s (List.mem_cons_of_mem _ hs)
    have hnext := distinctNames_handOn (t := t) hstep hdest hinputs
    rw [List.dropLast_cons_of_ne_nil (by simp), List.map_cons, List.nodup_cons] at hnames
    rw [flatMap_outputs_cons, List.nodup_append]
    refine ⟨nodup_of_distinctNames hnext, nodup_outputs hapart hdest (next :: rest) _ hrest hnext hnames.2, ?_⟩
    -- an output made again later would lie in this step's directory and in another one
    rintro x hx _ hy rfl
    obtain ⟨hother, hfinal⟩ := not_in_both hapart (walk_handOn hstep hdest hinputs.named hx)
    rcases walk_of_mem_outputs hdest (next :: rest) _ hrest hnext x hy with ⟨s, hs, hwalk⟩ | hwalk
    · exact hother s.name (fun heq => hnames.1 (List.mem_map.2 ⟨s, hs, heq⟩)) hwalk
    · exact hfinal hwalk

theorem src_subset_staged {step : Step} {inputs : List String} {m : Mapping} (hm : m ∈ t.staged step blockDest inputs) :
    ∀ x ∈ m.src, x ∈ inputs := by
  intro x hx
  rw [← t.inputs_staged blockDest step inputs]
  exact List.mem_flatMap.2 ⟨m, hm, hx⟩

theorem not_mem_src_of_nodup : ∀ (chain : List Step) (inputs : List String),
    ((t.wire blockDest chain inputs).flatMap Position.outputs).Nodup →
    (∀ x ∈ inputs, x ∉ (t.wire blockDest chain inputs).flatMap Position.outputs) →
    ∀ p ∈ t.wire blockDest chain inputs, ∀ m ∈ p.mappings, m.dest ∉ m.src
  | [], _, _, _, _, hp => by cases hp
  | [step], inputs, _, hfresh, p, hp => by
    intro m hm hmem
    rw [wire, List.mem_singleton] at hp
    subst hp
    rw [List.mem_singleton] at hm
    subst hm
    exact hfresh _ hmem (by simp [wire, Position.outputs])
  | step :: next :: rest, inputs, hnodup, hfresh, p, hp => by
    rw [flatMap_outputs_cons] at hnodup hfresh
    obtain ⟨-, hrest, hapart⟩ := List.nodup_append.1 hnodup
    rw [wire] at hp
    rcases List.mem_cons.1 hp with rfl | hp
    · intro m hm hmem
      have hmade : m.dest ∈ t.handOn blockDest inputs step := List.mem_map_of_mem hm
      exact hfresh _ (src_subset_staged hm _ hmem) (List.mem_append_left _ hmade)
    · exact not_mem_src_of_nodup (next :: rest) _ hrest (fun x hx hx' => hapart x hx x hx' rfl) p hp

/-- **A chain whose steps before the last have different names is linear.** -/
theorem linear_wire (hapart : t.Apart cwd) {chain : List Step} (hchain : ∀ step ∈ chain, IsName step.name)
    (hnames : (chain.dropLast.map Step.name).Nodup) {sources : List String}
    (hadmits : t.Admits cwd blockDest sources) : Linear (t.wire blockDest chain sources) := by
  have hnodup := nodup_outputs hapart hadmits.dest_stays chain sources hchain hadmits.names hnames
  refine ⟨not_mem_src_of_nodup chain sources hnodup fun x hx hmade => ?_, hnodup⟩
  rcases walk_of_mem_outputs hadmits.dest_stays chain sources hchain hadmits.names x hmade with ⟨step, -, hwalk⟩ | hwalk
  · exact hadmits.not_staged x hx ((List.prefix_append _ _).trans hwalk)
  · exact hadmits.not_final x hx hwalk

/-! ### A step that stands twice

With one source whose file name is the block's destination, every position before the last makes a file of that name. -/

theorem handOn_of_fileName? {file x : String} (hfile : Path.fileName? ⟨x⟩ = some file) (hroot : rootless file = file)
    (step : Step) : t.handOn file [x] step = [Output.inStep t.staging step.name file] := by
  cases hmode : step.mode with
  | merged => rw [t.handOn_merged file hmode, Output.staged, hroot, Output.inStep]
  | perSource =>
    rw [t.handOn_perSource file hmode, List.map_cons, List.map_nil, Output.stagedFor_eq t.staging step.name hfile]

theorem outputs_of_fileName? {file : String} (hroot : rootless file = file) : ∀ (chain : List Step) (x : String),
    Path.fileName? ⟨x⟩ = some file →
    (chain.dropLast.map fun step => Output.inStep t.staging step.name file) <+:
      (t.wire file chain [x]).flatMap Position.outputs
  | [], _, _ => List.nil_prefix
  | [_], _, _ => List.nil_prefix
  | step :: next :: rest, x, hfile => by
    have hkept := Output.fileName?_inStep t.staging step.name (Path.isName_of_fileName? hfile)
    rw [flatMap_outputs_cons, handOn_of_fileName? hfile hroot, List.dropLast_cons_of_ne_nil (by simp), List.map_cons]
    exact (List.prefix_cons_inj _).2 (outputs_of_fileName? hroot (next :: rest) _ hkept)

/-- There is a file in the root directory that lies in neither directory. -/
theorem exists_admits (hapart : t.Apart cwd) :
    ∃ file x, rootless file = file ∧ Path.fileName? ⟨x⟩ = some file ∧ t.Admits cwd file [x] := by
  cases hs : t.staging.walk cwd with
  | nil => exact absurd (by rw [Path.LiesIn, hs]; exact List.nil_prefix) hapart.dest
  | cons a as => cases hd : t.dest.walk cwd with
    | nil => exact absurd (by rw [Path.LiesIn, hd]; exact List.nil_prefix) hapart.staging
    | cons b bs =>
      obtain ⟨file, hname, hroot, hlong⟩ := Path.exists_longName (a.toList.length + b.toList.length)
      have hfile := Path.fileName?_join ⟨"/"⟩ hname
      have hwalk : ((⟨"/"⟩ : Path).join ⟨file⟩).walk cwd = [file] := by
        rw [Path.walk_join, Path.walk_name hname, Path.walk, show Path.components ⟨"/"⟩ = [.root] by decide]
        rfl
      have hfresh : ∀ top rest, top.toList.length < file.toList.length → ¬ top :: rest <+: [file] := by
        intro top rest hlt hprefix
        rw [(List.cons_prefix_cons.1 hprefix).1] at hlt
        exact Nat.lt_irrefl _ hlt
      refine ⟨file, ((⟨"/"⟩ : Path).join ⟨file⟩).text, hroot, hfile, ?_, ?_, ⟨?_, ?_⟩, ?_, ?_⟩
      · intro hnil
        rw [hnil] at hlong
        exact Nat.not_lt_zero _ hlong
      · rw [hroot]
        exact hname.nonClimbing
      · intro y hy
        rw [List.mem_singleton.1 hy, Path.mk_text, hfile]
        rfl
      · simp
      · intro y hy
        rw [List.mem_singleton.1 hy, Path.LiesIn, Path.mk_text, hwalk, hs]
        exact hfresh a as (by omega)
      · intro y hy
        rw [List.mem_singleton.1 hy, Path.LiesIn, Path.mk_text, hwalk, hd]
        exact hfresh b bs (by omega)

end Targets

/-- **When the chain of a block type is linear**: for every block that stays in its directory and all sources from
outside with different names, no mapping reads what it makes and no output is made twice, exactly if the steps before
the last have different names. -/
theorem Compiler.positions_linear_iff (c : Compiler) (kind : String) (cwd : List String)
    (hchain : ∀ step ∈ c.flow.chainOf kind, IsName step.name) (hapart : c.targets.Apart cwd) :
    (∀ (block : Block) (sources : List String), block.kind = kind → c.targets.Admits cwd block.dest sources →
      Linear (c.positions block sources)) ↔
    ((c.flow.chainOf kind).dropLast.map Step.name).Nodup := by
  constructor
  · intro hlinear
    obtain ⟨file, x, hroot, hfile, hadmits⟩ := c.targets.exists_admits hapart
    have hnodup := (hlinear ⟨kind, file, []⟩ [x] rfl hadmits).2
    -- with this source the outputs before the last differ in nothing but the names of their steps
    have hmade := (Targets.outputs_of_fileName? hroot (c.flow.chainOf kind) x hfile).sublist.nodup hnodup
    rw [List.Nodup, List.pairwise_map] at hmade ⊢
    exact hmade.imp fun hne heq => hne (by rw [heq])
  · rintro hnames block sources rfl hadmits
    exact Targets.linear_wire hapart hchain hnames hadmits

/-- A step may stand once more in the last position. -/
theorem linear_concat_uglify_concat :
    (∀ step ∈ (Compiler.ofChain "js" [.concat, .uglify, .concat]).flow.chainOf "js", IsName step.name) ∧
    (Compiler.ofChain "js" [.concat, .uglify, .concat]).targets.Apart ["work"] ∧
    (∀ (block : Block) (sources : List String), block.kind = "js" →
      (Compiler.ofChain "js" [.concat, .uglify, .concat]).targets.Admits ["work"] block.dest sources →
      Linear ((Compiler.ofChain "js" [.concat, .uglify, .concat]).positions block sources)) := by
  have hnames : ∀ step ∈ (Compiler.ofChain "js" [.concat, .uglify, .concat]).flow.chainOf "js", IsName step.name := by
    decide +kernel
  have hapart : (Compiler.ofChain "js" [.concat, .uglify, .concat]).targets.Apart ["work"] :=
    ⟨by decide +kernel, by decide +kernel⟩
  exact ⟨hnames, hapart, (Compiler.positions_linear_iff _ "js" ["work"] hnames hapart).2 (by decide +kernel)⟩

/-- **A step that stands twice before the last position overwrites its own output**, so not every chain is linear. -/
theorem not_linear_of_repeated_step :
    ¬ ∀ (registry : Registry) (d : Declarations) (c : Compiler) (cwd : List String) (block : Block)
      (sources : List String), Flow.ofDeclarations registry d = .ok c.flow →
      (∀ step ∈ c.flow.chainOf block.kind, IsName step.name) → c.targets.Apart cwd →
      c.targets.Admits cwd block.dest sources → Linear (c.positions block sources) := by
  intro h
  have hlinear := h .standard ⟨[("js", [.id "uglify", .id "uglify", .id "concat"])], []⟩
    (.ofChain "js" [.uglify, .uglify, .concat]) ["work"] ⟨"js", "site.js", ["a.js"]⟩ ["app/a.js"] (by rfl)
    (by decide +kernel) ⟨by decide +kernel, by decide +kernel⟩
    ⟨by decide +kernel, by decide +kernel, ⟨by decide +kernel, by decide +kernel⟩, by decide +kernel, by decide +kernel⟩
  exact absurd hlinear (by decide +kernel)

end StepChain
