import Mathlib.Data.List.Induction
import ClassScript.Proofs.Session.Readings

/-!
# A table that others are taken into and dropped from

A table is brought up to date with others: one is taken in, or one is dropped again
(`Update`). An update decides the entries of its own table and no other entry
(`Update.depth?_apply`). So where no two of the tables have an entry for one occurrence, only
the last update with a table counts for its entries (`Locals.depth?_updated`), and what is
there in the end is the union of the tables that were taken in last (`Locals.updated_eq_union`).
The tables of separate readings are such tables (`last_update_counts`).
-/

namespace ClassScript.Binding

open Syntax

/-! ## Tables without common entries -/

namespace Locals

/-- No occurrence has an entry in both tables. -/
def Apart (a b : Locals) : Prop := ∀ id, (a.depth? id).isSome → b.depth? id = none

variable {a b c : Locals}

theorem Apart.symm (apart : a.Apart b) : b.Apart a := by
  intro id known
  refine Option.not_isSome_iff_eq_none.mp fun also => ?_
  rw [apart id also] at known
  cases known

theorem Apart.merge (first : a.Apart c) (second : b.Apart c) : (a.merge b).Apart c := by
  intro id known
  rw [depth?_merge, Option.isSome_or, Bool.or_eq_true] at known
  exact known.elim (second id) (first id)

@[simp] theorem size_empty : empty.size = 0 := rfl

theorem size_merge (apart : a.Apart b) : (a.merge b).size = a.size + b.size := by
  refine Std.ExtTreeMap.size_union_of_not_mem fun id inside also => ?_
  have known := Std.ExtTreeMap.isSome_getElem?_iff_mem.mpr inside
  have unknown : b.depths[id]? = none := apart id known
  rw [← Std.ExtTreeMap.isSome_getElem?_iff_mem, unknown] at also
  cases also

theorem size_foldl_merge {tables : List Locals} (apart : (a :: tables).Pairwise Apart) :
    (tables.foldl merge a).size = a.size + (tables.map size).sum := by
  induction tables generalizing a with
  | nil => simp
  | cons table rest ih =>
    obtain ⟨fromFirst, more⟩ := List.pairwise_cons.mp apart
    obtain ⟨fromTable, among⟩ := List.pairwise_cons.mp more
    have both : (a.merge table :: rest).Pairwise Apart := by
      refine List.pairwise_cons.mpr ⟨fun other inside => ?_, among⟩
      exact (fromFirst other (List.mem_cons_of_mem _ inside)).merge (fromTable other inside)
    rw [List.foldl_cons, ih both, size_merge (fromFirst table List.mem_cons_self), List.map_cons,
      List.sum_cons, Nat.add_assoc]

/-- The union of tables that are apart has as many entries as these have in all. -/
theorem size_union {tables : List Locals} (apart : tables.Pairwise Apart) :
    (union tables).size = (tables.map size).sum := by
  have fromEmpty : (empty :: tables).Pairwise Apart := by
    refine List.pairwise_cons.mpr ⟨fun table _ id known => ?_, apart⟩
    rw [depth?_empty] at known
    cases known
  rw [union, size_foldl_merge fromEmpty, size_empty, Nat.zero_add]

/-- Where no table has an entry, the union has none. -/
theorem depth?_union_of_unknown {tables : List Locals} {id : NodeId}
    (unknown : ∀ table ∈ tables, table.depth? id = none) : (union tables).depth? id = none :=
  (depth?_foldl_merge unknown empty).trans (depth?_empty id)

theorem depth?_union_of_mem {tables : List Locals} (apart : tables.Pairwise Apart)
    {table : Locals} (inside : table ∈ tables) {id : NodeId}
    (known : (table.depth? id).isSome) : (union tables).depth? id = table.depth? id := by
  obtain ⟨before, behind, rfl⟩ := List.append_of_mem inside
  obtain ⟨-, fromTable, across⟩ := List.pairwise_append.mp apart
  refine depth?_union rfl (fun other early => ?_) fun other late => ?_
  · exact (across other early table List.mem_cons_self).symm id known
  · exact List.rel_of_pairwise_cons fromTable late id known

end Locals

/-! ## Single updates -/

/-- One of several tables is taken in, or dropped. It goes by its number. -/
inductive Update (count : Nat) where
  | merge (number : Fin count)
  | forget (number : Fin count)
deriving Repr, DecidableEq

namespace Update

variable {count : Nat} (tables : Fin count → Locals)

def number : Update count → Fin count
  | merge number | forget number => number

/-- What an update makes of a table. -/
def apply : Update count → Locals → Locals
  | merge number, table => table.merge (tables number)
  | forget number, table => table.forget (tables number)

/-- The entry that an update leaves for an occurrence that its table has an entry for. -/
def leaves? (id : NodeId) : Update count → Option Nat
  | merge number => (tables number).depth? id
  | forget _ => none

/-- What an update leaves is decided by the table it is about, where that has the identity. -/
theorem depth?_apply (update : Update count) (table : Locals) (id : NodeId) :
    (update.apply tables table).depth? id =
      if ((tables update.number).depth? id).isSome then update.leaves? tables id
      else table.depth? id := by
  cases update with
  | merge number =>
    rw [apply, leaves?, Update.number, Locals.depth?_merge]
    cases (tables number).depth? id <;> rfl
  | forget number => exact Locals.depth?_forget ..

/-- Updates with tables that have no common entries may change places. -/
theorem apply_comm {first second : Update count}
    (apart : (tables first.number).Apart (tables second.number)) (table : Locals) :
    second.apply tables (first.apply tables table) =
      first.apply tables (second.apply tables table) := by
  refine Locals.ext fun id => ?_
  simp only [depth?_apply]
  by_cases known : ((tables first.number).depth? id).isSome
  · simp [known, apart id known]
  · simp [known]

/-! ## Several updates -/

/-- The last of the updates with the table of a number. -/
def last? (number : Fin count) (updates : List (Update count)) : Option (Update count) :=
  (updates.filter (·.number = number)).getLast?

/-- The last of the updates with the table of a number takes it in. -/
def MergedLast (number : Fin count) (updates : List (Update count)) : Prop :=
  last? number updates = some (merge number)

instance (number : Fin count) (updates : List (Update count)) :
    Decidable (MergedLast number updates) :=
  inferInstanceAs (Decidable (last? number updates = some (merge number)))

theorem last?_append (number : Fin count) (updates : List (Update count))
    (update : Update count) :
    last? number (updates ++ [update]) =
      if update.number = number then some update else last? number updates := by
  by_cases own : update.number = number <;> simp [last?, own]

theorem mergedLast_append (number : Fin count) (updates : List (Update count))
    (update : Update count) :
    MergedLast number (updates ++ [update]) ↔
      if update.number = number then update = merge number else MergedLast number updates := by
  rw [MergedLast, last?_append]
  split
  · exact Option.some_inj
  · rfl

end Update

namespace Locals

open Update

variable {count : Nat} {tables : Fin count → Locals}

/-- The empty table after some updates. -/
def updated (tables : Fin count → Locals) (updates : List (Update count)) : Locals :=
  updates.foldl (fun table update => update.apply tables table) empty

theorem updated_append (updates : List (Update count)) (update : Update count) :
    updated tables (updates ++ [update]) = update.apply tables (updated tables updates) :=
  List.foldl_append

/-- Where no table has an entry, there is none after any updates. -/
theorem depth?_updated_of_unknown {id : NodeId}
    (unknown : ∀ number, (tables number).depth? id = none) (updates : List (Update count)) :
    (updated tables updates).depth? id = none := by
  induction updates using List.reverseRecOn with
  | nil => exact depth?_empty id
  | append_singleton updates update ih =>
    rw [updated_append, depth?_apply, unknown]
    exact ih

section Apart

variable (apart : Pairwise fun number other => (tables number).Apart (tables other))
include apart

/-- The entries of a table are there after all updates if the last update with it took it in,
and otherwise they are not. -/
theorem depth?_updated {number : Fin count} {id : NodeId}
    (known : ((tables number).depth? id).isSome) (updates : List (Update count)) :
    (updated tables updates).depth? id =
      if MergedLast number updates then (tables number).depth? id else none := by
  induction updates using List.reverseRecOn with
  | nil => exact depth?_empty id
  | append_singleton updates update ih =>
    rw [updated_append, depth?_apply]
    by_cases own : update.number = number
    · -- whatever was there before, the update decides
      rw [own, if_pos known]
      simp only [mergedLast_append, own, if_true]
      cases update with
      | merge other =>
        obtain rfl : other = number := own
        rw [leaves?, if_pos rfl]
      | forget other => simp [leaves?]
    -- an update by another table leaves the entry alone
    · have elsewhere : (tables update.number).depth? id = none := apart (Ne.symm own) id known
      simp only [mergedLast_append, own, if_false, elsewhere]
      exact ih

theorem pairwise_mergedLast (updates : List (Update count)) :
    (((List.finRange count).filter (MergedLast · updates)).map tables).Pairwise Apart :=
  List.pairwise_map.mpr (((List.nodup_finRange count).filter _).imp fun differ => apart differ)

/-- What is there after all updates are the tables that were taken in last. -/
theorem updated_eq_union (updates : List (Update count)) :
    updated tables updates =
      union (((List.finRange count).filter (MergedLast · updates)).map tables) := by
  refine ext fun id => ?_
  by_cases known : ∃ number, ((tables number).depth? id).isSome
  · obtain ⟨number, known⟩ := known
    rw [depth?_updated apart known]
    split
    -- the table is in the union, which is disjoint, so the entry is its own
    · next merged =>
      refine (depth?_union_of_mem (pairwise_mergedLast apart updates) ?_ known).symm
      exact List.mem_map_of_mem (List.mem_filter.mpr ⟨List.mem_finRange _, decide_eq_true merged⟩)
    · next dropped =>
      refine (depth?_union_of_unknown fun table inside => ?_).symm
      obtain ⟨other, among, rfl⟩ := List.mem_map.mp inside
      have merged : MergedLast other updates := of_decide_eq_true (List.mem_filter.mp among).2
      have differ : number ≠ other := by
        rintro rfl
        exact dropped merged
      exact apart differ id known
  · have unknown (number : Fin count) : (tables number).depth? id = none :=
      Option.not_isSome_iff_eq_none.mp fun inside => known ⟨number, inside⟩
    rw [depth?_updated_of_unknown unknown, depth?_union_of_unknown]
    intro table inside
    obtain ⟨number, -, rfl⟩ := List.mem_map.mp inside
    exact unknown number

end Apart

end Locals

end ClassScript.Binding

namespace ClassScript.Session

open Source Syntax Parsing Binding

/-! ## The tables of separate readings -/

/-- The tables that resolution makes for trees, where it finds nothing wrong. -/
def tablesOf (trees : List Input) : List Locals :=
  trees.filterMap fun tree => (resolveInput tree).toOption

theorem mem_ids_of_table {tree : Input} {table : Locals} {id : NodeId}
    (resolved : (resolveInput tree).toOption = some table) (known : (table.depth? id).isSome) :
    id ∈ tree.ids := by
  cases outcome : resolveInput tree with
  | error errors =>
    rw [outcome] at resolved
    cases resolved
  | ok locals =>
    rw [outcome] at resolved
    cases resolved
    exact Noted.mem_ids ⟨table, outcome, known⟩

/-- No two of the tables have an entry for one occurrence, if no occurrence is in two trees. -/
theorem tablesOf_apart {trees : List Input} (distinct : (trees.flatMap Input.ids).Nodup) :
    (tablesOf trees).Pairwise Locals.Apart := by
  refine List.pairwise_filterMap.mpr ((List.nodup_flatMap.mp distinct).2.imp ?_)
  intro tree other apart table resolved table' resolved' id known
  refine Option.not_isSome_iff_eq_none.mp fun also => ?_
  exact apart (mem_ids_of_table resolved known) (mem_ids_of_table resolved' also)

/-- In a row of tables that are apart, those of different numbers are apart. -/
theorem apart_get {tables : List Locals} (apart : tables.Pairwise Locals.Apart) :
    Pairwise fun number other => (tables.get number).Apart (tables.get other) := by
  intro number other differ
  rcases Nat.lt_or_gt_of_ne (Fin.val_ne_of_ne differ) with before | behind
  · exact List.pairwise_iff_get.mp apart number other before
  · exact (List.pairwise_iff_get.mp apart other number behind).symm

/-- Let the tables of trees that were read separately be taken into one table and dropped
from it, in any order and any number of times. Then that table has the entries of those tables
whose last update took them in, with the depths recorded there, and no others; so it has as
many as these tables together. And updates with different tables may change places. -/
theorem last_update_counts (nextId : NodeId) (commands : List Command) :
    let tables := tablesOf ((Process.start nextId).trees commands)
    (∀ updates : List (Update tables.length),
      let table := Locals.updated tables.get updates
      (∀ number id depth, (tables.get number).depth? id = some depth →
        (table.depth? id = some depth ↔ Update.MergedLast number updates) ∧
        (table.depth? id = none ↔ ¬ Update.MergedLast number updates)) ∧
      (∀ id, (table.depth? id).isSome → ∃ number, ((tables.get number).depth? id).isSome) ∧
      table.size = (((List.finRange tables.length).filter
        (Update.MergedLast · updates)).map fun number => (tables.get number).size).sum) ∧
    ∀ (first second : Update tables.length) (table : Locals), first.number ≠ second.number →
      second.apply tables.get (first.apply tables.get table) =
        first.apply tables.get (second.apply tables.get table) := by
  intro tables
  have distinct := ((Process.start nextId).trees_drawn commands).2.distinct
  -- separate readings draw different identities, hence disjoint tables
  have apart := apart_get (tablesOf_apart distinct)
  refine ⟨fun updates => ⟨?entries, ?others, ?size⟩, ?order⟩
  case entries =>
    intro number id depth recorded
    have known : ((tables.get number).depth? id).isSome := recorded ▸ rfl
    rw [Locals.depth?_updated apart known, recorded]
    by_cases merged : Update.MergedLast number updates <;> simp [merged]
  case others =>
    intro id inside
    refine Decidable.byContradiction fun nowhere => ?_
    rw [Locals.depth?_updated_of_unknown] at inside
    · cases inside
    · exact fun number => Option.not_isSome_iff_eq_none.mp fun known => nowhere ⟨number, known⟩
  case size =>
    rw [Locals.updated_eq_union apart, Locals.size_union (Locals.pairwise_mergedLast apart _),
      List.map_map]
    rfl
  case order => exact fun first second table differ => Update.apply_comm _ (apart differ) table

/-- A text is read twice, so that its occurrence has two identities. The table of the first
reading is dropped in the end, and the entry of the second one stays. -/
theorem second_reading_stays :
    let words : Tokens := ⟨[⟨.leftBrace, "\x7b", 1⟩, ⟨.var, "var", 1⟩, ⟨.identifier, "a", 1⟩,
      ⟨.semicolon, ";", 1⟩, ⟨.identifier, "a", 1⟩, ⟨.semicolon, ";", 1⟩,
      ⟨.rightBrace, "\x7d", 1⟩], 1⟩
    let commands : List Command := [.open words, .open words, .call 0 .program, .call 1 .program]
    let tables := tablesOf ((Process.start 0).trees commands)
    ∃ first second : Fin tables.length,
      ((tables.get first).depth? 0 = some 0 ∧ (tables.get second).depth? 1 = some 0) ∧
      let table := Locals.updated tables.get [.merge first, .merge second, .forget first]
      table.depth? 0 = none ∧ table.depth? 1 = some 0 := by
  intro words commands tables
  -- two readings of one text give two tables
  have two : tables.length = 2 := by decide +kernel +revert
  let first : Fin tables.length := ⟨0, by omega⟩
  let second : Fin tables.length := ⟨1, by omega⟩
  let updates : List (Update tables.length) := [.merge first, .merge second, .forget first]
  have recorded : (tables.get first).depth? 0 = some 0 := by decide +kernel +revert
  have recorded' : (tables.get second).depth? 1 = some 0 := by decide +kernel +revert
  have dropped : ¬ Update.MergedLast first updates := by decide +kernel +revert
  have kept : Update.MergedLast second updates := by decide +kernel +revert
  obtain ⟨entries, -⟩ := (last_update_counts 0 commands).1 updates
  exact ⟨first, second, ⟨recorded, recorded'⟩, (entries first 0 0 recorded).2.mpr dropped,
    (entries second 1 0 recorded').1.mpr kept⟩

end ClassScript.Session
