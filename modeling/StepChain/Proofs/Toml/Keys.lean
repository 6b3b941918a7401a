import StepChain.Proofs.Traversal
import StepChain.Toml.Document
/-!
# A table holds a key once

Keys of a document are set under headers, by dotted keys and in inline tables, and each way leaves every table, at any
depth, with keys that are all different (`Outline.Keeps`, `distinct_readValue`).  So a document that is read has such
tables only (`Table.distinct_ofText?`), and reading marked tables as datetimes keeps that up
(`Value.Distinct.unmarked?`).
-/
namespace StepChain.Toml

/-- No table in a value, at any depth, holds a key twice. -/
inductive Value.Distinct : Value → Prop where
  | string (s : String) : Distinct (.string s)
  | integer (n : Int) : Distinct (.integer n)
  | float (x : Option Binary64) : Distinct (.float x)
  | boolean (b : Bool) : Distinct (.boolean b)
  | datetime (d : Datetime) : Distinct (.datetime d)
  | array {items : List Value} (each : ∀ v ∈ items, Distinct v) : Distinct (.array items)
  | table {entries : List (String × Value)} (keys : (entries.map (·.1)).Nodup) (each : ∀ e ∈ entries, Distinct e.2) :
      Distinct (.table entries)

/-- The keys of a table are all different, and so are those of all tables in it. -/
structure Table.Distinct (t : Table) : Prop where
  keys : (t.map (·.1)).Nodup
  each : ∀ e ∈ t, e.2.Distinct

theorem Value.distinct_table {t : Table} : (Value.table t).Distinct ↔ Table.Distinct t := by
  constructor
  · rintro (_ | _ | _ | _ | _ | _ | ⟨keys, each⟩)
    exact ⟨keys, each⟩
  · exact fun h => .table h.keys h.each

theorem Value.distinct_array {items : List Value} : (Value.array items).Distinct ↔ ∀ v ∈ items, v.Distinct := by
  constructor
  · rintro (_ | _ | _ | _ | _ | each)
    exact each
  · exact .array

namespace Outline

/-- The same of an outline. -/
inductive Distinct : Outline → Prop where
  | value {v : Value} (distinct : v.Distinct) : Distinct (.value v)
  | table {origin : Origin} {entries : List (String × Outline)} (keys : (entries.map (·.1)).Nodup)
      (each : ∀ e ∈ entries, Distinct e.2) : Distinct (.table origin entries)
  | tables {items : List (List (String × Outline))} (keys : ∀ entries ∈ items, (entries.map (·.1)).Nodup)
      (each : ∀ entries ∈ items, ∀ e ∈ entries, Distinct e.2) : Distinct (.tables items)

structure DistinctEntries (entries : Entries) : Prop where
  keys : (entries.map (·.1)).Nodup
  each : ∀ e ∈ entries, e.2.Distinct

theorem distinct_table {origin : Origin} {entries : Entries} :
    (Outline.table origin entries).Distinct ↔ DistinctEntries entries := by
  constructor
  · rintro (_ | ⟨keys, each⟩)
    exact ⟨keys, each⟩
  · exact fun h => .table h.keys h.each

theorem distinct_tables {items : List Entries} :
    (Outline.tables items).Distinct ↔ ∀ entries ∈ items, DistinctEntries entries := by
  constructor
  · rintro (_ | _ | ⟨keys, each⟩) entries hmem
    exact ⟨keys entries hmem, each entries hmem⟩
  · exact fun h => .tables (fun entries hmem => (h entries hmem).keys) fun entries hmem => (h entries hmem).each

/-! ### Open entries -/

namespace DistinctEntries

variable {entries : Entries} {key : String} {node : Outline}

theorem nil : DistinctEntries [] := ⟨.nil, by simp⟩

theorem distinct_of_lookup? (h : DistinctEntries entries) (hnode : lookup? entries key = some node) :
    node.Distinct := by
  obtain ⟨e, he, rfl⟩ := Option.map_eq_some_iff.1 hnode
  exact h.each e (List.mem_of_find?_eq_some he)

theorem concat (h : DistinctEntries entries) (hkey : lookup? entries key = none) (hnode : node.Distinct) :
    DistinctEntries (entries ++ [(key, node)]) := by
  have hnew : key ∉ entries.map (·.1) := by
    intro hmem
    obtain ⟨e, he, rfl⟩ := List.mem_map.1 hmem
    have hnone := List.find?_eq_none.1 (Option.map_eq_none_iff.1 hkey) e he
    simp at hnone
  refine ⟨?_, ?_⟩
  · rw [List.map_append, List.map_singleton, List.nodup_append]
    refine ⟨h.keys, by simp, fun a ha b hb => ?_⟩
    rintro rfl
    rw [List.mem_singleton.1 hb] at ha
    exact hnew ha
  · rw [List.forall_mem_append]
    exact ⟨h.each, by simpa using hnode⟩

theorem replace (h : DistinctEntries entries) (key : String) (hnode : node.Distinct) :
    DistinctEntries (replace key node entries) := by
  refine ⟨?_, ?_⟩
  · have hkeys : (Outline.replace key node entries).map (·.1) = entries.map (·.1) := by
      rw [Outline.replace, List.map_map]
      refine List.map_congr_left fun e _ => ?_
      by_cases he : e.1 = key
      · simp [he]
      · simp [he]
    rw [hkeys]
    exact h.keys
  · intro e he
    obtain ⟨old, hold, rfl⟩ := List.mem_map.1 he
    by_cases hkey : old.1 == key
    · rw [if_pos hkey]
      exact hnode
    · rw [if_neg hkey]
      exact h.each old hold

theorem filter (h : DistinctEntries entries) (keep : String × Outline → Bool) :
    DistinctEntries (entries.filter keep) :=
  ⟨h.keys.sublist ((List.filter_sublist).map _), fun e he => h.each e (List.mem_filter.1 he).1⟩

end DistinctEntries

/-! ### Changes -/

/-- A change that leaves keys different where they are. -/
def Keeps (f : Entries → Option Entries) : Prop :=
  ∀ entries result, DistinctEntries entries → f entries = some result → DistinctEntries result

theorem distinct_updateLast {f : Entries → Option Entries} (hf : Keeps f) : ∀ {items result : List Entries},
    updateLast f items = some result → (∀ entries ∈ items, DistinctEntries entries) →
    ∀ entries ∈ result, DistinctEntries entries
  | [], _, h, _ => by cases h
  | [last], result, h, hitems => by
    obtain ⟨changed, hchanged, rfl⟩ := Option.map_eq_some_iff.1 h
    simpa using hf last changed (hitems last List.mem_cons_self) hchanged
  | first :: second :: rest, result, h, hitems => by
    obtain ⟨changed, hchanged, rfl⟩ := Option.map_eq_some_iff.1 h
    rw [List.forall_mem_cons] at hitems ⊢
    exact ⟨hitems.1, distinct_updateLast hf hchanged hitems.2⟩

theorem keeps_setDotted {value : Value} (hvalue : value.Distinct) (key : String) :
    ∀ path : List String, Keeps (setDotted value key path)
  | [], entries, result, hentries, h => by
    unfold setDotted at h
    split at h
    · cases h
    · rename_i hkey
      cases h
      exact hentries.concat (by simpa using hkey) (.value hvalue)
  | part :: path, entries, result, hentries, h => by
    have ih := keeps_setDotted hvalue key path
    unfold setDotted at h
    split at h
    · rename_i hpart
      obtain ⟨inner, hinner, rfl⟩ := Option.map_eq_some_iff.1 h
      exact hentries.concat hpart (distinct_table.2 (ih [] inner .nil hinner))
    · rename_i origin inner hpart
      split at h
      · cases h
      · obtain ⟨changed, hchanged, rfl⟩ := Option.map_eq_some_iff.1 h
        have hinner := distinct_table.1 (hentries.distinct_of_lookup? hpart)
        exact hentries.replace part (distinct_table.2 (ih inner changed hinner hchanged))
    · rename_i items hpart
      split at h
      · cases h
      · obtain ⟨changed, hchanged, rfl⟩ := Option.map_eq_some_iff.1 h
        have hitems := distinct_tables.1 (hentries.distinct_of_lookup? hpart)
        exact hentries.replace part (distinct_tables.2 (distinct_updateLast ih hchanged hitems))
    · cases h

theorem keeps_within {f : Entries → Option Entries} (hf : Keeps f) : ∀ path : List String, Keeps (within f path)
  | [], entries, result, hentries, h => hf entries result hentries h
  | part :: path, entries, result, hentries, h => by
    have ih := keeps_within hf path
    unfold within at h
    split at h
    · rename_i hpart
      obtain ⟨inner, hinner, rfl⟩ := Option.map_eq_some_iff.1 h
      exact hentries.concat hpart (distinct_table.2 (ih [] inner .nil hinner))
    · rename_i origin inner hpart
      obtain ⟨changed, hchanged, rfl⟩ := Option.map_eq_some_iff.1 h
      have hinner := distinct_table.1 (hentries.distinct_of_lookup? hpart)
      exact hentries.replace part (distinct_table.2 (ih inner changed hinner hchanged))
    · rename_i items hpart
      obtain ⟨changed, hchanged, rfl⟩ := Option.map_eq_some_iff.1 h
      have hitems := distinct_tables.1 (hentries.distinct_of_lookup? hpart)
      exact hentries.replace part (distinct_tables.2 (distinct_updateLast ih hchanged hitems))
    · cases h

theorem keeps_openTable (key : String) : Keeps (openTable key) := by
  intro entries result hentries h
  unfold openTable at h
  split at h
  · rename_i hkey
    cases h
    exact hentries.concat hkey (distinct_table.2 .nil)
  · rename_i inner hkey
    cases h
    -- the table moves to the end, so its key is free again
    have hfree : lookup? (entries.filter (·.1 != key)) key = none := by
      rw [lookup?, Option.map_eq_none_iff, List.find?_eq_none]
      intro e he
      simpa using (List.mem_filter.1 he).2
    have hinner := distinct_table.1 (hentries.distinct_of_lookup? hkey)
    exact (hentries.filter _).concat hfree (distinct_table.2 hinner)
  · cases h

theorem keeps_openItem (key : String) : Keeps (openItem key) := by
  intro entries result hentries h
  unfold openItem at h
  split at h
  · rename_i hkey
    cases h
    exact hentries.concat hkey (distinct_tables.2 (by simpa using DistinctEntries.nil))
  · rename_i items hkey
    cases h
    have hitems := distinct_tables.1 (hentries.distinct_of_lookup? hkey)
    refine hentries.replace key (distinct_tables.2 ?_)
    rw [List.forall_mem_append]
    exact ⟨hitems, by simpa using DistinctEntries.nil⟩
  · cases h

/-! ### What outlines stand for -/

theorem entriesToTable_eq_map : ∀ entries : Entries, entriesToTable entries = entries.map fun e => (e.1, e.2.toValue)
  | [] => rfl
  | _ :: entries => congrArg _ (entriesToTable_eq_map entries)

theorem itemsToValues_eq_map : ∀ items : List Entries,
    itemsToValues items = items.map fun entries => .table (entriesToTable entries)
  | [] => rfl
  | _ :: items => congrArg _ (itemsToValues_eq_map items)

theorem distinct_entriesToTable {entries : Entries} (keys : (entries.map (·.1)).Nodup)
    (each : ∀ e ∈ entries, e.2.toValue.Distinct) : Table.Distinct (entriesToTable entries) := by
  rw [entriesToTable_eq_map]
  refine ⟨by rwa [List.map_map], fun e he => ?_⟩
  obtain ⟨node, hnode, rfl⟩ := List.mem_map.1 he
  exact each node hnode

theorem Distinct.toValue {node : Outline} (h : node.Distinct) : node.toValue.Distinct := by
  induction h with
  | value distinct => exact distinct
  | table keys _ ih => exact Value.distinct_table.2 (distinct_entriesToTable keys ih)
  | tables keys _ ih =>
    rw [Outline.toValue, itemsToValues_eq_map]
    refine .array fun v hv => ?_
    obtain ⟨entries, hentries, rfl⟩ := List.mem_map.1 hv
    exact Value.distinct_table.2 (distinct_entriesToTable (keys entries hentries) (ih entries hentries))

theorem DistinctEntries.toTable {entries : Entries} (h : DistinctEntries entries) :
    Table.Distinct (entriesToTable entries) :=
  distinct_entriesToTable h.keys fun e he => (h.each e he).toValue

end Outline

/-! ### Values -/

theorem distinct_integer? {n : Int} {v : Value} (h : integer? n = some v) : v.Distinct := by
  unfold integer? at h
  split at h
  · cases h
    exact .integer n
  · cases h

theorem distinct_float? {negative : Bool} {whole fraction : List Char} {exponent : Int} {v : Value}
    (h : float? negative whole fraction exponent = some v) : v.Distinct := by
  unfold float? at h
  split at h
  · cases h
    exact .float _
  · split at h
    · cases h
      exact .float none
    · cases h

theorem distinct_readSigned? {negative : Bool} {cs : List Char} {read : Value × List Char}
    (h : readSigned? negative cs = some read) : read.1.Distinct := by
  unfold readSigned? at h
  split at h
  · cases h
    exact .float none
  · cases h
    exact .float none
  · simp only [readDecimalNumber?, Option.bind_eq_bind, Option.bind_eq_some_iff] at h
    obtain ⟨whole, -, fraction, -, exponent, -, h⟩ := h
    split at h
    · obtain ⟨v, hv, h⟩ := Option.bind_eq_some_iff.1 h
      cases h
      exact distinct_integer? hv
    · obtain ⟨v, hv, h⟩ := Option.bind_eq_some_iff.1 h
      cases h
      exact distinct_float? hv

theorem distinct_readNumeral? {cs : List Char} {read : Value × List Char} (h : readNumeral? cs = some read) :
    read.1.Distinct := by
  have hradix : ∀ {base : Nat} {cs : List Char}, readRadix? base cs = some read → read.1.Distinct := by
    intro base cs h
    obtain ⟨digits, -, h⟩ := Option.bind_eq_some_iff.1 h
    obtain ⟨v, hv, h⟩ := Option.bind_eq_some_iff.1 h
    cases h
    exact distinct_integer? hv
  unfold readNumeral? at h
  split at h
  · obtain ⟨d, -, rfl⟩ := Option.map_eq_some_iff.1 h
    exact .datetime d.1
  · unfold readNumber? at h
    split at h
    · exact distinct_readSigned? h
    · exact distinct_readSigned? h
    · exact hradix h
    · exact hradix h
    · exact hradix h
    · exact distinct_readSigned? h

theorem foldlM_keeps {α β : Type} {P : β → Prop} {f : β → α → Option β} : ∀ {xs : List α} {b result : β},
    (∀ x ∈ xs, ∀ b result, P b → f b x = some result → P result) → P b → xs.foldlM f b = some result → P result
  | [], _, _, _, hb, h => by
    cases h
    exact hb
  | x :: xs, b, result, hf, hb, h => by
    rw [List.foldlM_cons] at h
    obtain ⟨next, hnext, h⟩ := Option.bind_eq_some_iff.1 h
    rw [List.forall_mem_cons] at hf
    exact foldlM_keeps hf.2 (hf.1 b next hb hnext) h

theorem distinct_inlineTable? {pairs : List (List String × Value)} {v : Value} (hpairs : ∀ pair ∈ pairs, pair.2.Distinct)
    (h : inlineTable? pairs = some v) : v.Distinct := by
  obtain ⟨entries, hentries, h⟩ := Option.bind_eq_some_iff.1 h
  cases h
  refine Value.distinct_table.2 (Outline.DistinctEntries.toTable (foldlM_keeps ?_ .nil hentries))
  intro pair hpair entries result hbefore hset
  obtain ⟨key, -, hset⟩ := Option.bind_eq_some_iff.1 hset
  exact Outline.keeps_setDotted (hpairs pair hpair) key.2 key.1 entries result hbefore hset

/-- What the readers of values read, with some fuel. -/
structure ReadDistinct (fuel : Nat) : Prop where
  value : ∀ nesting cs read, readValue nesting fuel cs = some read → read.1.Distinct
  items : ∀ nesting cs read, readItems nesting fuel cs = some read → ∀ v ∈ read.1, v.Distinct
  pairs : ∀ nesting cs read, readPairs nesting fuel cs = some read → ∀ pair ∈ read.1, pair.2.Distinct

section

variable {fuel nesting : Nat} {cs : List Char}

theorem ReadDistinct.readValue (ih : ReadDistinct fuel) {read : Value × List Char}
    (h : readValue nesting (fuel + 1) cs = some read) : read.1.Distinct := by
  unfold Toml.readValue at h
  split at h
  · obtain ⟨text, -, rfl⟩ := Option.map_eq_some_iff.1 h
    exact .string text.1
  · obtain ⟨text, -, rfl⟩ := Option.map_eq_some_iff.1 h
    exact .string text.1
  · split at h
    · cases h
    · obtain ⟨items, hitems, rfl⟩ := Option.map_eq_some_iff.1 h
      exact .array (ih.items _ _ items hitems)
  · split at h
    · cases h
    · split at h
      · cases h
        exact .table .nil (by simp)
      · obtain ⟨pairs, hpairs, h⟩ := Option.bind_eq_some_iff.1 h
        obtain ⟨v, hv, h⟩ := Option.bind_eq_some_iff.1 h
        cases h
        exact distinct_inlineTable? (ih.pairs _ _ pairs hpairs) hv
  · cases h
    exact .boolean true
  · cases h
    exact .boolean false
  · exact distinct_readNumeral? h

theorem ReadDistinct.readItems (ih : ReadDistinct fuel) {read : List Value × List Char}
    (h : readItems nesting (fuel + 1) cs = some read) : ∀ v ∈ read.1, v.Distinct := by
  unfold Toml.readItems at h
  obtain ⟨start, -, h⟩ := Option.bind_eq_some_iff.1 h
  split at h
  · cases h
    simp
  · obtain ⟨item, hitem, h⟩ := Option.bind_eq_some_iff.1 h
    have hfirst := ih.value _ _ item hitem
    obtain ⟨next, -, h⟩ := Option.bind_eq_some_iff.1 h
    split at h
    · obtain ⟨items, hitems, h⟩ := Option.bind_eq_some_iff.1 h
      cases h
      exact List.forall_mem_cons.2 ⟨hfirst, ih.items _ _ items hitems⟩
    · cases h
      exact List.forall_mem_singleton.2 hfirst
    · cases h

theorem ReadDistinct.readPairs (ih : ReadDistinct fuel) {read : List (List String × Value) × List Char}
    (h : readPairs nesting (fuel + 1) cs = some read) : ∀ pair ∈ read.1, pair.2.Distinct := by
  unfold Toml.readPairs at h
  obtain ⟨⟨key, rest⟩, -, h⟩ := Option.bind_eq_some_iff.1 h
  dsimp only at h
  split at h
  · obtain ⟨value, hvalue, h⟩ := Option.bind_eq_some_iff.1 h
    have hfirst := ih.value _ _ value hvalue
    split at h
    · obtain ⟨pairs, hpairs, h⟩ := Option.bind_eq_some_iff.1 h
      cases h
      exact List.forall_mem_cons.2 ⟨hfirst, ih.pairs _ _ pairs hpairs⟩
    · cases h
      exact List.forall_mem_singleton.2 hfirst
    · cases h
  · cases h

end

theorem readDistinct : ∀ fuel : Nat, ReadDistinct fuel
  | 0 => ⟨nofun, nofun, nofun⟩
  | fuel + 1 =>
    have ih := readDistinct fuel
    ⟨fun _ _ _ => ih.readValue, fun _ _ _ => ih.readItems, fun _ _ _ => ih.readPairs⟩

/-! ### Documents -/

/-- The value of a line, if it has one. -/
def Line.Distinct : Line → Prop
  | .pair _ value => value.Distinct
  | _ => True

theorem distinct_readLine? {cs : List Char} {read : Line × List Char} (h : readLine? cs = some read) :
    read.1.Distinct := by
  unfold readLine? at h
  split at h
  · obtain ⟨⟨key, rest⟩, -, h⟩ := Option.bind_eq_some_iff.1 h
    dsimp only at h
    split at h
    · obtain ⟨rest, -, h⟩ := Option.bind_eq_some_iff.1 h
      cases h
      trivial
    · cases h
  · obtain ⟨⟨key, rest⟩, -, h⟩ := Option.bind_eq_some_iff.1 h
    dsimp only at h
    split at h
    · obtain ⟨rest, -, h⟩ := Option.bind_eq_some_iff.1 h
      cases h
      trivial
    · cases h
  · cases h
    trivial
  · obtain ⟨rest, -, rfl⟩ := Option.map_eq_some_iff.1 h
    trivial
  · split at h
    · cases h
      trivial
    · obtain ⟨⟨key, rest⟩, -, h⟩ := Option.bind_eq_some_iff.1 h
      dsimp only at h
      split at h
      · obtain ⟨value, hvalue, h⟩ := Option.bind_eq_some_iff.1 h
        obtain ⟨rest, -, h⟩ := Option.bind_eq_some_iff.1 h
        cases h
        exact (readDistinct _).value _ _ value hvalue
      · cases h

theorem distinct_readLines : ∀ {fuel : Nat} {cs : List Char} {lines : List Line}, readLines fuel cs = some lines →
    ∀ line ∈ lines, line.Distinct
  | 0, _, _, h => by cases h
  | fuel + 1, cs, lines, h => by
    unfold readLines at h
    split at h
    · cases h
      simp
    · obtain ⟨read, hread, h⟩ := Option.bind_eq_some_iff.1 h
      obtain ⟨rest, hrest, h⟩ := Option.bind_eq_some_iff.1 h
      cases h
      exact List.forall_mem_cons.2 ⟨distinct_readLine? hread, distinct_readLines hrest⟩

/-- **Taking a line** leaves keys different, whatever kind of line it is. -/
theorem Progress.distinct_take? {line : Line} (hline : line.Distinct) {p next : Progress}
    (hp : Outline.DistinctEntries p.entries) (h : p.take? line = some next) : Outline.DistinctEntries next.entries := by
  unfold Progress.take? at h
  split at h
  · cases h
    exact hp
  · obtain ⟨key, -, h⟩ := Option.bind_eq_some_iff.1 h
    obtain ⟨entries, hentries, h⟩ := Option.bind_eq_some_iff.1 h
    cases h
    exact Outline.keeps_within (Outline.keeps_setDotted hline key.2 key.1) _ _ entries hp hentries
  · obtain ⟨key, -, h⟩ := Option.bind_eq_some_iff.1 h
    obtain ⟨entries, hentries, h⟩ := Option.bind_eq_some_iff.1 h
    cases h
    exact Outline.keeps_within (Outline.keeps_openTable key.2) _ _ entries hp hentries
  · obtain ⟨key, -, h⟩ := Option.bind_eq_some_iff.1 h
    obtain ⟨entries, hentries, h⟩ := Option.bind_eq_some_iff.1 h
    cases h
    exact Outline.keeps_within (Outline.keeps_openItem key.2) _ _ entries hp hentries

/-- **A document that is read holds each key once**, in every table. -/
theorem Table.distinct_ofText? {text : String} {t : Table} (h : Table.ofText? text = some t) : t.Distinct := by
  obtain ⟨lines, hlines, h⟩ := Option.bind_eq_some_iff.1 h
  obtain ⟨p, hp, h⟩ := Option.bind_eq_some_iff.1 h
  cases h
  have hdistinct := distinct_readLines hlines
  refine Outline.DistinctEntries.toTable
    (foldlM_keeps (P := fun p : Progress => Outline.DistinctEntries p.entries) ?_ .nil hp)
  exact fun line hline p next hbefore htake => Progress.distinct_take? (hdistinct line hline) hbefore htake

/-! ### Marked tables -/

namespace Value

theorem unmarkedItems?_eq_mapM : ∀ items : List Value, unmarkedItems? items = items.mapM unmarked?
  | [] => rfl
  | v :: items => by
    rw [unmarkedItems?, unmarkedItems?_eq_mapM items, List.mapM_cons]

theorem forall₂_of_unmarkedEntries? : ∀ {t u : Table}, unmarkedEntries? t = some u →
    List.Forall₂ (fun e e' => e.1 = e'.1 ∧ e.2.unmarked? = some e'.2) t u
  | [], _, h => by
    cases h
    exact .nil
  | (key, v) :: t, _, h => by
    obtain ⟨w, hw, h⟩ := Option.bind_eq_some_iff.1 h
    obtain ⟨rest, hrest, h⟩ := Option.bind_eq_some_iff.1 h
    cases h
    exact .cons ⟨rfl, hw⟩ (forall₂_of_unmarkedEntries? hrest)

theorem map_fst_of_unmarkedEntries? {t u : Table} (h : unmarkedEntries? t = some u) : u.map (·.1) = t.map (·.1) :=
  (map_eq_of_forall₂ (fun _ _ he => he.1) (forall₂_of_unmarkedEntries? h)).symm

theorem distinct_unmarkedEntries? {t u : Table} (keys : (t.map (·.1)).Nodup)
    (each : ∀ e ∈ t, ∀ w, e.2.unmarked? = some w → w.Distinct) (h : unmarkedEntries? t = some u) : u.Distinct := by
  refine ⟨by rwa [map_fst_of_unmarkedEntries? h], fun e' he' => ?_⟩
  obtain ⟨e, he, -, hw⟩ := exists_of_mem_forall₂ (forall₂_of_unmarkedEntries? h) he'
  exact each e he e'.2 hw

theorem Distinct.unmarked? {v : Value} (h : v.Distinct) : ∀ w, v.unmarked? = some w → w.Distinct := by
  induction h with
  | string s =>
    rintro _ ⟨⟩
    exact .string s
  | integer n =>
    rintro _ ⟨⟩
    exact .integer n
  | float x =>
    rintro _ ⟨⟩
    exact .float x
  | boolean b =>
    rintro _ ⟨⟩
    exact .boolean b
  | datetime d =>
    rintro _ ⟨⟩
    exact .datetime d
  | array _ ih =>
    intro w hw
    obtain ⟨items, hitems, rfl⟩ := Option.map_eq_some_iff.1 hw
    rw [unmarkedItems?_eq_mapM] at hitems
    refine .array fun v hv => ?_
    obtain ⟨item, hitem, hread⟩ := exists_of_mem_forall₂ (mapM_eq_some_iff.1 hitems) hv
    exact ih item hitem v hread
  | table keys _ ih =>
    intro w hw
    unfold Value.unmarked? at hw
    split at hw
    · obtain ⟨d, -, rfl⟩ := Option.map_eq_some_iff.1 hw
      exact .datetime d
    · obtain ⟨u, hu, rfl⟩ := Option.map_eq_some_iff.1 hw
      exact distinct_table.2 (distinct_unmarkedEntries? keys ih hu)

end Value

end StepChain.Toml
