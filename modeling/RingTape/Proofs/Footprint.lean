import RingTape.Proofs.Table
import RingTape.Proofs.Shape

/-!
What an operation may touch. `Rewrites` says in terms of the table of a store which entries an operation changes and
which slots it frees; everything else about a cell that is neither touched nor freed follows from that, its fields
and the subtree below it.
-/

namespace RingTape

set_option autoImplicit false

namespace Store

/--
The entries of a store that are not changed and not freed stay, and all that is new is made of new cells. What is
freed goes with everything below it, and hangs from a cell that is changed or freed itself.
-/
structure Rewrites (before after : Store) (changed freed : CellId → Prop) : Prop where
  kept : ∀ id entry, before.Has id entry → ¬ changed id → ¬ freed id → after.Has id entry
  made : ∀ id entry, after.Has id entry → changed id ∨ before.Has id entry ∨
    ∀ child ∈ entry.ring.members, child ∈ before.ids → freed child
  closed : ∀ id entry, before.Has id entry → freed id → ∀ child ∈ entry.ring.members, freed child
  edge : ∀ id entry, before.Has id entry → ∀ child ∈ entry.ring.members, freed child → changed id ∨ freed id

/-- What an operation that touches and frees no more than the given cells does to all others. -/
structure Spares (before after : Store) (touched : List CellId) (freed : CellId → Prop) : Prop where
  distinct : after.ids.Nodup
  fields : ∀ id ∈ before.ids, ¬ freed id → id ∉ touched → after.fields? id = before.fields? id
  cells : ∀ id ∈ before.ids, ¬ freed id → (∀ other ∈ touched, other ∉ before.branch id) →
    after.cell? id = before.cell? id

theorem spares_refl {store : Store} (distinct : store.ids.Nodup) (touched : List CellId) (freed : CellId → Prop) :
    Spares store store touched freed :=
  ⟨distinct, fun _ _ _ _ => rfl, fun _ _ _ _ => rfl⟩

theorem Spares.mono {before after : Store} {touched : List CellId} {freed more : CellId → Prop}
    (spares : Spares before after touched freed) (within : ∀ id ∈ before.ids, freed id → more id) :
    Spares before after touched more :=
  ⟨spares.distinct, fun id live kept => spares.fields id live fun gone => kept (within id live gone),
    fun id live kept => spares.cells id live fun gone => kept (within id live gone)⟩

theorem parentLink_of_fields? {before after : Store} {id : CellId} (live : id ∈ before.ids)
    (same : after.fields? id = before.fields? id) : after.parentLink id = before.parentLink id := by
  obtain ⟨cell, inside, rfl⟩ := (Cell.mem_forestIds _ _).mp live
  have known : (before.fields? cell.id).isSome = true := by
    rw [Store.fields?, Option.isSome_map]
    exact (contains_iff _).mpr live
  obtain ⟨fields, found⟩ := Option.isSome_iff_exists.mp known
  have parent {store : Store} (read : store.fields? cell.id = some fields) :
      store.parentLink cell.id = fields.parent := by
    obtain ⟨_, _, rfl⟩ := Option.map_eq_some_iff.mp read
    rfl
  rw [parent found, parent (same.trans found)]

/-- Where all that is touched or freed is below a cell, nothing else gets below it. -/
theorem Spares.mem_branch {before after : Store} {touched : List CellId} {freed : CellId → Prop}
    (spares : Spares before after touched freed) (distinct : before.ids.Nodup) {top : CellId}
    (within : ∀ id, id ∈ touched ∨ freed id → id ∈ before.branch top) :
    ∀ id ∈ after.branch top, id ∈ before.ids → id ∈ before.branch top := by
  apply branch_induction spares.distinct (fun id => id ∈ before.ids → id ∈ before.branch top) mem_branch_self
  intro id child _ parentUnder linked live
  by_cases changed : child ∈ touched ∨ freed child
  · exact within child changed
  · rw [not_or] at changed
    -- It still has the parent that it had, and so that one was below already.
    have same := spares.fields child live changed.2 changed.1
    rw [parentLink_of_fields? live same] at linked
    obtain ⟨entry, has, _⟩ := (parentLink_eq_some_iff_has distinct id child).mp linked
    exact child_mem_branch distinct (parentUnder has.mem_ids) linked

/-- An operation that gives one cell a new value or new children, and leaves it where it is. -/
structure Assigns (before after : Store) (target : CellId) (freed : CellId → Prop) : Prop where
  spares : Spares before after [target] freed
  kin : after.kin target = before.kin target
  live : target ∈ before.ids → target ∈ after.ids

theorem assigns_refl {store : Store} (distinct : store.ids.Nodup) (target : CellId) (freed : CellId → Prop) :
    Assigns store store target freed :=
  ⟨spares_refl distinct _ _, rfl, id⟩

theorem Assigns.mono {before after : Store} {target : CellId} {freed more : CellId → Prop}
    (assigns : Assigns before after target freed) (within : ∀ id ∈ before.ids, freed id → more id) :
    Assigns before after target more :=
  ⟨assigns.spares.mono within, assigns.kin, assigns.live⟩

/-- Only freed cells go. -/
theorem Assigns.freed {before after : Store} {target : CellId} {freed : CellId → Prop}
    (assigns : Assigns before after target freed) {id : CellId} (live : id ∈ before.ids) (absent : id ∉ after.ids) :
    freed id := by
  by_contra stays
  have other : id ∉ [target] := by
    rw [List.mem_singleton]
    rintro rfl
    exact absent (assigns.live live)
  have same := congrArg Option.isSome (assigns.spares.fields id live stays other)
  rw [fields?, fields?, Option.isSome_map, Option.isSome_map] at same
  exact absent ((contains_iff _).mp (same.trans ((contains_iff _).mpr live)))

section Rewrites

variable {before after : Store} {changed freed : CellId → Prop} (rewrites : Rewrites before after changed freed)
  (distinct : before.ids.Nodup) (afterDistinct : after.ids.Nodup)

include rewrites distinct afterDistinct

/-- A cell keeps its ties if it is not freed and not a child of a changed cell. -/
theorem Rewrites.kin {id : CellId} (live : id ∈ before.ids) (stays : ¬ freed id)
    (unnamed : ∀ parent entry, changed parent → before.Has parent entry ∨ after.Has parent entry →
      id ∉ entry.ring.members) : after.kin id = before.kin id := by
  apply kin_congr distinct afterDistinct
  intro parent entry ofRing
  constructor
  · intro has
    rcases rewrites.made parent entry has with isChanged | same | new
    · exact absurd ofRing (unnamed parent entry isChanged (Or.inr has))
    · exact same
    · exact absurd (new id ofRing live) stays
  · intro has
    refine rewrites.kept parent entry has ?_ ?_
    · intro isChanged
      exact unnamed parent entry isChanged (Or.inl has) ofRing
    · intro gone
      exact stays (rewrites.closed parent entry has gone id ofRing)

theorem Rewrites.fields? {id : CellId} (live : id ∈ before.ids) (stays : ¬ freed id) (same : ¬ changed id)
    (kin : after.kin id = before.kin id) : after.fields? id = before.fields? id := by
  obtain ⟨entry, has⟩ := exists_has live
  exact fields?_congr distinct afterDistinct has (rewrites.kept id entry has same stays) kin

/-- A subtree without changed cells has no freed cell, if its top is not freed. -/
theorem Rewrites.cell? {id : CellId} (live : id ∈ before.ids) (stays : ¬ freed id)
    (same : ∀ below ∈ before.branch id, ¬ changed below) : after.cell? id = before.cell? id := by
  have unfreed : ∀ below ∈ before.branch id, ¬ freed below := by
    apply branch_induction distinct (fun below => ¬ freed below) stays
    intro parent child under parentStays linked gone
    obtain ⟨entry, has, ofRing⟩ := (parentLink_eq_some_iff_has distinct parent child).mp linked
    rcases rewrites.edge parent entry has child ofRing gone with isChanged | parentGone
    · exact same parent under isChanged
    · exact parentStays parentGone
  apply cell?_congr distinct afterDistinct live
  intro below under entry has
  exact rewrites.kept below entry has (same below under) (unfreed below under)

/-- Cells that are not touched are spared, if all changed cells and their children are touched or freed. -/
theorem Rewrites.spares {touched : List CellId} (covers : ∀ id, changed id → id ∈ touched)
    (family : ∀ id entry, changed id → before.Has id entry ∨ after.Has id entry →
      ∀ child ∈ entry.ring.members, child ∈ before.ids → freed child ∨ child ∈ touched) :
    Spares before after touched freed := by
  refine ⟨afterDistinct, ?_, ?_⟩
  · intro id live stays untouched
    apply rewrites.fields? distinct afterDistinct live stays fun isChanged => untouched (covers id isChanged)
    apply rewrites.kin distinct afterDistinct live stays
    intro parent entry isChanged has ofRing
    rcases family parent entry isChanged has id ofRing live with gone | isTouched
    · exact stays gone
    · exact untouched isTouched
  · intro id live stays apart
    apply rewrites.cell? distinct afterDistinct live stays
    intro below under isChanged
    exact apart below (covers below isChanged) under

end Rewrites

section Lost

/-- A cell is freed with a lost child that it is or lies below. -/
def Lost (host : Cell) (gone : List Cell) (id : CellId) : Prop :=
  ∃ old ∈ host.ring.members, old ∈ gone ∧ id ∈ old.ids

theorem not_lost_nil (host : Cell) (id : CellId) : ¬ Lost host [] id := by
  rintro ⟨_, _, none, _⟩
  exact absurd none List.not_mem_nil

variable {store : Store} (distinct : store.ids.Nodup) {host : Cell} (inside : host ∈ store.nodes) {gone : List Cell}
  {id : CellId} {entry : Entry} (has : store.Has id entry)

include distinct inside has

theorem Lost.down (lost : Lost host gone id) : ∀ child ∈ entry.ring.members, Lost host gone child := by
  intro child ofRing
  obtain ⟨old, wasChild, ofGone, under⟩ := lost
  obtain ⟨node, lower, rfl, rfl⟩ := has.node distinct (member_mem_nodes inside wasChild) under
  exact ⟨old, wasChild, ofGone, Cell.mem_ids_of_entry lower ofRing⟩

theorem Lost.up {child : CellId} (ofRing : child ∈ entry.ring.members) (lost : Lost host gone child) :
    id = host.id ∨ Lost host gone id := by
  obtain ⟨old, wasChild, ofGone, under⟩ := lost
  by_cases top : child = old.id
  · left
    have linked := (parentLink_eq_some_iff_has distinct id child).mpr ⟨entry, has, ofRing⟩
    rw [top, parentLink, parent?_of_mem distinct inside (List.mem_map.mpr ⟨old, wasChild, rfl⟩)] at linked
    simpa using linked.symm
  · exact Or.inr ⟨old, wasChild, ofGone,
      has.mem_ids_of_child distinct ofRing (member_mem_nodes inside wasChild) under top⟩

end Lost

section Accounts

/--
A new ring for a cell, with what it has gained and lost: the new members come from the pool, and the lost ones go
back to it.
-/
structure Accounts (host : Cell) (ring : Ring Cell) (before after : Pool) (new gone : List Cell) : Prop where
  members : (gone ++ ring.members).Perm (new ++ host.ring.members)
  counted : ∀ id, after.usage id + (Cell.forestIds gone).count id = before.usage id + (Cell.forestIds new).count id

variable {store : Store} (sound : store.Sound) {host : Cell} (inside : host ∈ store.nodes) {value : Num}
  {ring : Ring Cell} {pool : Pool} {new gone : List Cell} (accounts : Accounts host ring store.pool pool new gone)

include accounts

theorem Accounts.kept {member : Cell} (child : member ∈ host.ring.members) :
    member ∈ gone ∨ member ∈ ring.members :=
  List.mem_append.mp (accounts.members.mem_iff.mpr (List.mem_append_right _ child))

include sound inside

theorem Accounts.count_ids (id : CellId) :
    ((store.replace host.id value ring pool).ids.count id : Int) = pool.usage id := by
  have counts : (store.replace host.id value ring pool).ids.count id +
      (Cell.forestIds host.ring.members).count id =
        store.ids.count id + (Cell.forestIds ring.members).count id :=
    Cell.count_forestReplace sound.distinct value ring id inside
  have shared := (Cell.forestIds_perm accounts.members).count_eq id
  have balance := accounts.counted id
  have used : (store.ids.count id : Int) = store.pool.usage id := sound.slots id
  rw [Cell.forestIds_append, Cell.forestIds_append, List.count_append, List.count_append] at shared
  omega

theorem Accounts.distinct : (store.replace host.id value ring pool).ids.Nodup := by
  rw [List.nodup_iff_count_le_one]
  intro id
  have counted : ((store.replace host.id value ring pool).ids.count id : Int) = pool.usage id :=
    accounts.count_ids sound inside id
  have most := Pool.usage_le_one pool id
  omega

/-- A member of the new ring is an old child, or none of its slots was in use by a cell that stays. -/
theorem Accounts.made {member : Cell} (ofRing : member ∈ ring.members) :
    member ∈ host.ring.members ∨ ∀ id ∈ member.ids, id ∈ store.ids → Lost host gone id := by
  by_cases child : member ∈ host.ring.members
  · exact Or.inl child
  · right
    intro id own live
    have used : (store.ids.count id : Int) = store.pool.usage id := sound.slots id
    have first := List.count_pos_iff.mpr live
    have balance := accounts.counted id
    have most := Pool.usage_le_one pool id
    have shared := (Cell.forestIds_perm accounts.members).count_eq id
    rw [Cell.forestIds_append, Cell.forestIds_append, List.count_append, List.count_append] at shared
    have here : 0 < (Cell.forestIds ring.members).count id :=
      List.count_pos_iff.mpr ((Cell.mem_forestIds_iff_mem_ids _ _).mpr ⟨member, ofRing, own⟩)
    have below : 0 < (Cell.forestIds host.ring.members).count id := by omega
    obtain ⟨old, wasChild, ofOld⟩ := (Cell.mem_forestIds_iff_mem_ids _ _).mp (List.count_pos_iff.mp below)
    rcases accounts.kept wasChild with lost | stays
    · exact ⟨old, wasChild, lost, ofOld⟩
    · -- Both members of the new ring would have the slot.
      have once : (Cell.forestIds ring.members).Nodup := by
        have present := host_mem_replace sound.distinct inside host.value ring pool
        have spread := Cell.ids_nodup (accounts.distinct sound inside) present
        rw [Cell.ids_eq, List.nodup_cons] at spread
        exact spread.2
      have same := Cell.tree_unique once ofRing stays own ofOld
      exact absurd (same ▸ wasChild) child

theorem Accounts.rewrites :
    Rewrites store (store.replace host.id value ring pool) (fun id => id = host.id) (Lost host gone) := by
  have table (id : CellId) (entry : Entry) := Cell.told_forestReplace sound.distinct inside value ring id entry
  have distinct := sound.distinct
  refine ⟨?_, ?_, ?_, ?_⟩
  · intro id entry has other stays
    apply (table id entry).mpr
    by_cases below : id ∈ host.ids
    · obtain ⟨member, child, under⟩ := Cell.exists_member_of_mem_ids below other
      rcases accounts.kept child with lost | ofRing
      · exact absurd ⟨member, child, lost, under⟩ stays
      · obtain ⟨node, lower, rfl, rfl⟩ := has.node distinct (member_mem_nodes inside child) under
        exact Or.inr (Or.inl (Cell.told_member ofRing lower))
    · exact Or.inr (Or.inr ⟨has, below⟩)
  · intro id entry has
    rcases (table id entry).mp has with ⟨same, _⟩ | ⟨node, below, rfl, rfl⟩ | ⟨same, _⟩
    · exact Or.inl same
    · obtain ⟨member, ofRing, under⟩ := (Cell.mem_forestNodes _ _).mp below
      rcases accounts.made sound inside ofRing with child | fresh
      · exact Or.inr (Or.inl (Cell.told_of_mem
          (Cell.forestNodes_subset _ _ (member_mem_nodes inside child) _ under)))
      · refine Or.inr (Or.inr ?_)
        intro child ofNode live
        exact fresh child (Cell.mem_ids_of_entry under ofNode) live
    · exact Or.inr (Or.inl same)
  · intro id entry has lost
    exact Lost.down distinct inside has lost
  · intro id entry has child ofRing lost
    exact Lost.up distinct inside has ofRing lost

/-- A live child of the cell, before or after, is one of the old children or lost. -/
theorem Accounts.child_cases {entry : Entry}
    (has : store.Has host.id entry ∨ (store.replace host.id value ring pool).Has host.id entry) {child : CellId}
    (ofRing : child ∈ entry.ring.members) (live : child ∈ store.ids) :
    Lost host gone child ∨ child ∈ host.ring.members.map Cell.id := by
  have distinct := sound.distinct
  rcases has with here | there
  · exact Or.inr (here.children distinct inside ofRing)
  · have present := host_mem_replace distinct inside value ring pool
    obtain ⟨member, among, rfl⟩ := List.mem_map.mp
      (Has.children (accounts.distinct sound inside) present there ofRing)
    rcases accounts.made sound inside among with old | fresh
    · exact Or.inr (List.mem_map.mpr ⟨member, old, rfl⟩)
    · exact Or.inl (fresh member.id member.id_mem_ids live)

theorem Accounts.spares {touched : List CellId} (covers : host.id ∈ touched)
    (family : ∀ member ∈ host.ring.members, member ∈ gone ∨ member.id ∈ touched) :
    Spares store (store.replace host.id value ring pool) touched (Lost host gone) := by
  apply (accounts.rewrites sound inside).spares sound.distinct (accounts.distinct sound inside)
  · intro id same
    exact same ▸ covers
  · rintro id entry rfl has child ofRing live
    rcases accounts.child_cases sound inside has ofRing live with lost | old
    · exact Or.inl lost
    · obtain ⟨member, wasChild, rfl⟩ := List.mem_map.mp old
      rcases family member wasChild with lost | isTouched
      · exact Or.inl ⟨member, wasChild, lost, member.id_mem_ids⟩
      · exact Or.inr isTouched

/-- The cell itself stays where it is. -/
theorem Accounts.kin_host : (store.replace host.id value ring pool).kin host.id = store.kin host.id := by
  have distinct := sound.distinct
  have live := mem_ids_of_below inside host.id_mem_ids
  have spread := Cell.ids_nodup distinct inside
  rw [Cell.ids_eq, List.nodup_cons] at spread
  have stays : ¬ Lost host gone host.id := by
    rintro ⟨old, child, _, under⟩
    exact spread.1 ((Cell.mem_forestIds_iff_mem_ids _ _).mpr ⟨old, child, under⟩)
  apply (accounts.rewrites sound inside).kin distinct (accounts.distinct sound inside) live stays
  rintro parent entry rfl has ofRing
  rcases accounts.child_cases sound inside has ofRing live with lost | old
  · exact stays lost
  · obtain ⟨member, child, same⟩ := List.mem_map.mp old
    exact spread.1 ((Cell.mem_forestIds_iff_mem_ids _ _).mpr ⟨member, child, same ▸ member.id_mem_ids⟩)

/-- A cell that loses all its children is the only one that is touched. -/
theorem Accounts.assigns (all : ∀ member ∈ host.ring.members, member ∈ gone) :
    Assigns store (store.replace host.id value ring pool) host.id (Lost host gone) := by
  refine ⟨?_, accounts.kin_host sound inside, ?_⟩
  · exact accounts.spares sound inside List.mem_cons_self fun member child => Or.inl (all member child)
  · intro _
    exact (Cell.mem_forestIds _ _).mpr ⟨_, host_mem_replace sound.distinct inside value ring pool, rfl⟩

/-- What is lost is gone for good, if none of the new members has its slot. -/
theorem Accounts.dropped (unused : ∀ id ∈ store.ids, id ∉ Cell.forestIds new) {id : CellId}
    (lost : Lost host gone id) : id ∉ (store.replace host.id value ring pool).ids := by
  obtain ⟨old, child, ofGone, under⟩ := lost
  have live := mem_ids_of_below (member_mem_nodes inside child) under
  have counted : ((store.replace host.id value ring pool).ids.count id : Int) = pool.usage id :=
    accounts.count_ids sound inside id
  have balance := accounts.counted id
  have most := Pool.usage_le_one store.pool id
  have none := List.count_eq_zero_of_not_mem (unused id live)
  have some : 0 < (Cell.forestIds gone).count id :=
    List.count_pos_iff.mpr ((Cell.mem_forestIds_iff_mem_ids _ _).mpr ⟨old, ofGone, under⟩)
  rw [← List.count_pos_iff]
  omega

end Accounts

end Store

end RingTape
