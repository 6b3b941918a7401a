import StepChain.Proofs.Command.Checking
import StepChain.Proofs.Flow.Declared
import StepChain.Proofs.Toml.Keys
/-!
# What a project declares

The chains and post-processors of a project are entries of two tables of its file, and each table holds a block type once
(`Project.distinct_of_ofText`).  So no chain replaces another, and what the project declares is what is written there, in
the order of the file (`Project.exists_declares`).
-/
namespace StepChain

/-! ### Chains of different block types -/

namespace Declarations

theorem setChain_of_not_mem {blockType : String} (chain : List ChainEntry) :
    ∀ {chains : List (String × List ChainEntry)}, blockType ∉ chains.map (·.1) →
      setChain blockType chain chains = chains ++ [(blockType, chain)]
  | [], _ => rfl
  | declared :: chains, h => by
    rw [List.map_cons, List.mem_cons, not_or] at h
    rw [setChain, if_neg (Ne.symm h.1), setChain_of_not_mem chain h.2, List.cons_append]

theorem chains_foldl_withChain : ∀ (chains : List (String × List ChainEntry)) (d : Declarations),
    ((d.chains ++ chains).map (·.1)).Nodup →
    (chains.foldl (fun d c => d.withChain c.1 c.2) d).chains = d.chains ++ chains
  | [], d, _ => (List.append_nil d.chains).symm
  | c :: chains, d, h => by
    have hnew : c.1 ∉ d.chains.map (·.1) := by
      rw [List.map_append, List.map_cons, List.nodup_append] at h
      exact fun hmem => h.2.2 c.1 hmem c.1 List.mem_cons_self rfl
    have hnext : (d.withChain c.1 c.2).chains = d.chains ++ [c] := setChain_of_not_mem c.2 hnew
    rw [List.append_cons, ← hnext] at h
    rw [List.foldl_cons, chains_foldl_withChain chains _ h, hnext, ← List.append_cons]

theorem chains_foldl_withPost (blockType : String) : ∀ (posts : List Post) (d : Declarations),
    (posts.foldl (fun d post => d.withPost blockType post) d).chains = d.chains
  | [], _ => rfl
  | post :: posts, d => by rw [List.foldl_cons, chains_foldl_withPost blockType posts, withPost]

theorem chains_foldl_groups : ∀ (groups : List (String × List Post)) (d : Declarations),
    (groups.foldl (fun d e => e.2.foldl (fun d post => d.withPost e.1 post) d) d).chains = d.chains
  | [], _ => rfl
  | e :: groups, d => by rw [List.foldl_cons, chains_foldl_groups groups, chains_foldl_withPost]

theorem posts_foldl_withChain : ∀ (chains : List (String × List ChainEntry)) (d : Declarations),
    (chains.foldl (fun d c => d.withChain c.1 c.2) d).posts = d.posts
  | [], _ => rfl
  | c :: chains, d => by rw [List.foldl_cons, posts_foldl_withChain chains, Declarations.withChain]

theorem posts_foldl_withPost (blockType : String) : ∀ (posts : List Post) (d : Declarations),
    (posts.foldl (fun d post => d.withPost blockType post) d).posts = d.posts ++ posts.map (blockType, ·)
  | [], d => (List.append_nil d.posts).symm
  | post :: posts, d => by
    rw [List.foldl_cons, posts_foldl_withPost blockType posts, Declarations.withPost, List.append_assoc]
    rfl

theorem posts_foldl_groups : ∀ (groups : List (String × List Post)) (d : Declarations),
    (groups.foldl (fun d e => e.2.foldl (fun d post => d.withPost e.1 post) d) d).posts = d.posts ++ keyed groups
  | [], d => (List.append_nil d.posts).symm
  | e :: groups, d => by
    rw [List.foldl_cons, posts_foldl_groups groups, posts_foldl_withPost, List.append_assoc]
    rfl

end Declarations

/-! ### The tables of a file -/

namespace Toml

/-- The keys of a table in a document; of one that is missing there are none. -/
def Table.keysAt (t : Table) (name : String) : List String := (((t.get? name).bind Value.table?).getD []).map (·.1)

theorem Value.array?_eq_some {v : Value} {items : List Value} : v.array? = some items ↔ v = .array items := by
  cases v <;> simp [Value.array?]

theorem Table.Distinct.get? {t : Table} (h : t.Distinct) {key : String} {v : Value} (hv : t.get? key = some v) :
    v.Distinct := by
  obtain ⟨e, he, rfl⟩ := Option.map_eq_some_iff.1 hv
  exact h.each e (List.mem_of_find?_eq_some he)

theorem Value.Distinct.table? {v : Value} (h : v.Distinct) {t : Table} (ht : v.table? = some t) : t.Distinct := by
  cases h with
  | table keys each =>
    cases ht
    exact ⟨keys, each⟩
  | datetime d =>
    cases ht
    exact ⟨by simp, by simpa using .string d.text⟩
  | _ => cases ht

end Toml

namespace Project

open Toml (Table Value)

theorem distinct_sectionOf? {v : Value} (hv : v.Distinct) {entries : Table} (h : sectionOf? v = some entries) :
    entries.Distinct := by
  obtain ⟨raw, hraw, h⟩ := Option.bind_eq_some_iff.1 h
  have hdistinct := hv.table? hraw
  exact Value.distinct_unmarkedEntries? hdistinct.keys (fun e he => (hdistinct.each e he).unmarked?) h

section

variable {t : Table} {name : String} {entries : Table}

theorem distinct_of_optional (ht : t.Distinct) (h : Value.optional sectionOf? [] (t.get? name) = some entries) :
    entries.Distinct := by
  cases hv : t.get? name with
  | none =>
    rw [hv] at h
    cases h
    exact ⟨.nil, by simp⟩
  | some v =>
    rw [hv] at h
    exact distinct_sectionOf? (ht.get? hv) h

theorem keys_of_optional (h : Value.optional sectionOf? [] (t.get? name) = some entries) :
    entries.map (·.1) = t.keysAt name := by
  rw [Table.keysAt]
  cases hv : t.get? name with
  | none =>
    rw [hv] at h
    cases h
    rfl
  | some v =>
    rw [hv] at h
    obtain ⟨raw, hraw, hentries⟩ := Option.bind_eq_some_iff.1 h
    rw [Option.bind_some, hraw, Option.getD_some]
    exact Value.map_fst_of_unmarkedEntries? hentries

end

variable {p : Project}

theorem sections_of_ofTable? {t : Table} (h : ofTable? t = some p) :
    Value.optional sectionOf? [] (t.get? "steps") = some p.steps ∧
      Value.optional sectionOf? [] (t.get? "post") = some p.posts := by
  obtain ⟨layout, -, h⟩ := Option.bind_eq_some_iff.1 h
  obtain ⟨strict, -, h⟩ := Option.bind_eq_some_iff.1 h
  obtain ⟨steps, hsteps, h⟩ := Option.bind_eq_some_iff.1 h
  obtain ⟨posts, hposts, h⟩ := Option.bind_eq_some_iff.1 h
  cases h
  exact ⟨hsteps, hposts⟩

theorem exists_table_of_ofText {text : String} (h : ofText text = .ok p) :
    ∃ t, Table.ofText? text = some t ∧ ofTable? t = some p := by
  unfold ofText at h
  cases hread : (Table.ofText? text).bind ofTable? with
  | none => simp [hread] at h
  | some q =>
    simp only [hread] at h
    obtain ⟨⟨⟩, -, hq⟩ := bind_eq_ok.1 h
    obtain rfl := Except.ok.inj hq
    exact Option.bind_eq_some_iff.1 hread

/-- **Each block type has one chain and one list of post-processors.** -/
theorem distinct_of_ofText {text : String} (h : ofText text = .ok p) : p.steps.Distinct ∧ p.posts.Distinct := by
  obtain ⟨t, ht, hp⟩ := exists_table_of_ofText h
  have hdistinct := Table.distinct_ofText? ht
  obtain ⟨hsteps, hposts⟩ := sections_of_ofTable? hp
  exact ⟨distinct_of_optional hdistinct hsteps, distinct_of_optional hdistinct hposts⟩

theorem exists_declarations_of_ofText {text : String} (h : ofText text = .ok p) : ∃ d, p.declarations = .ok d := by
  obtain ⟨⟨⟩, -, hcheck⟩ := bind_eq_ok.1 (check_of_ofText h)
  obtain ⟨d, hd, -⟩ := bind_eq_ok.1 hcheck
  exact ⟨d, hd⟩

/-! ### Entries in order -/

/-- An item of a chain is a name, or a table that describes a standard step. -/
theorem chainEntryOf?_eq_some {item : Value} {entry : ChainEntry} : chainEntryOf? item = some entry ↔
    (∃ text, item.name? = some text ∧ entry = .id text) ∨
      ∃ entries name perSource, item = .table entries ∧ (Table.get? entries "name").bind Value.name? = some name ∧
        Value.optional Value.boolean? false (Table.get? entries "per_source") = some perSource ∧
        entry = .step (.standard name (if perSource then .perSource else .merged)) := by
  cases item <;> simp [chainEntryOf?, Value.name?, Value.required, Option.bind_eq_some_iff, eq_comm (a := entry)]

/-- An item under a block type is a table with a step, or a list of a step and perhaps options. -/
theorem postOf?_eq_some {item : Value} {written : String × Option Value} : postOf? item = some written ↔
    (∃ entries, item = .table entries ∧ (Table.get? entries "step").bind Value.name? = some written.1 ∧
      Table.get? entries "options" = written.2) ∨
      ∃ first, item = .array (first :: written.2.toList) ∧ first.name? = some written.1 := by
  obtain ⟨step, options⟩ := written
  cases item with
  | table entries => simp [postOf?, Value.required, Option.bind_eq_some_iff]
  | array items =>
    rcases items with _ | ⟨first, _ | ⟨second, _ | ⟨third, rest⟩⟩⟩ <;> cases options <;>
      simp [postOf?, Option.map_eq_some_iff, and_comm]
  | _ => simp [postOf?]

theorem chainOf_eq_ok {entry : String × Value} {chain : List ChainEntry} : chainOf entry = .ok chain ↔
    ∃ items, entry.2 = .array items ∧ List.Forall₂ (fun item e => chainEntryOf? item = some e) items chain := by
  have hread : chainOf entry = .ok chain ↔ entry.2.array?.bind (·.mapM chainEntryOf?) = some chain := by
    rw [chainOf]
    cases entry.2.array?.bind (·.mapM chainEntryOf?) <;> simp
  simp only [hread, Option.bind_eq_some_iff, Value.array?_eq_some, mapM_eq_some_iff]

theorem postsOf_eq_ok {entry : String × Value} {posts : List Post} : postsOf entry = .ok posts ↔
    ∃ items written, entry.2 = .array items ∧ List.Forall₂ (fun item w => postOf? item = some w) items written ∧
      List.Forall₂ (fun w post => checkedPost entry.1 w = .ok post) written posts := by
  have hread : postsOf entry = .ok posts ↔ ∃ written, entry.2.array?.bind (·.mapM postOf?) = some written ∧
      written.mapM (checkedPost entry.1) = .ok posts := by
    rw [postsOf]
    cases entry.2.array?.bind (·.mapM postOf?) <;> simp
  simp only [hread, Option.bind_eq_some_iff, Value.array?_eq_some, mapM_eq_some_iff, mapM_eq_ok_iff]
  constructor
  · rintro ⟨written, ⟨items, hitems, hwritten⟩, hposts⟩
    exact ⟨items, written, hitems, hwritten, hposts⟩
  · rintro ⟨items, written, hitems, hwritten, hposts⟩
    exact ⟨written, ⟨items, hitems, hwritten⟩, hposts⟩

/-- What is declared: a chain for each entry of one table, and the post-processors of each entry of the other. -/
structure Declares (p : Project) (d : Declarations) (groups : List (String × List Post)) : Prop where
  chains : List.Forall₂ (fun entry c => entry.1 = c.1 ∧ chainOf entry = .ok c.2) p.steps d.chains
  grouped : List.Forall₂ (fun entry g => entry.1 = g.1 ∧ postsOf entry = .ok g.2) p.posts groups
  posts : d.posts = keyed groups

theorem forall₂_of_mapM_keyed {α : Type} {f : String × Value → Except ProjectFault α} {entries : Table}
    {results : List (String × α)}
    (h : entries.mapM (fun entry => do return (entry.1, ← f entry)) = (.ok results : Except ProjectFault _)) :
    List.Forall₂ (fun entry r => entry.1 = r.1 ∧ f entry = .ok r.2) entries results := by
  refine (forall₂_of_mapM h).imp fun entry r hr => ?_
  obtain ⟨a, ha, hr⟩ := bind_eq_ok.1 hr
  cases hr
  exact ⟨rfl, ha⟩

theorem exists_mapM_keyed_iff {α : Type} {f : String × Value → Except ProjectFault α} {entries : Table} :
    (∃ results, entries.mapM (fun entry => do return (entry.1, ← f entry)) = (.ok results : Except ProjectFault _)) ↔
      ∀ entry ∈ entries, ∃ a, f entry = .ok a := by
  have hitem : ∀ entry, faultOf (do return (entry.1, ← f entry) : Except ProjectFault (String × α)) =
      faultOf (f entry) := fun entry => faultOf_map (entry.1, ·) _
  rw [← faultOf_eq_none, faultOf_mapM, List.findSome?_eq_none_iff]
  simp only [hitem, faultOf_eq_none]

/-- **Nothing that is declared is replaced.** -/
theorem exists_declares (hkeys : (p.steps.map (·.1)).Nodup) {d : Declarations} (h : p.declarations = .ok d) :
    ∃ groups, p.Declares d groups := by
  obtain ⟨chains, hchains, h⟩ := bind_eq_ok.1 h
  obtain ⟨groups, hgroups, h⟩ := bind_eq_ok.1 h
  cases h
  have hsteps := forall₂_of_mapM_keyed hchains
  have hnodup : ((Declarations.empty.chains ++ chains).map (·.1)).Nodup := by
    rw [Declarations.empty, List.nil_append, ← map_eq_of_forall₂ (fun _ _ he => he.1) hsteps]
    exact hkeys
  refine ⟨groups, ?_, forall₂_of_mapM_keyed hgroups, ?_⟩
  · rw [Declarations.chains_foldl_groups, Declarations.chains_foldl_withChain chains _ hnodup]
    exact hsteps
  · rw [Declarations.posts_foldl_groups, Declarations.posts_foldl_withChain]
    exact List.nil_append _

end Project

end StepChain
