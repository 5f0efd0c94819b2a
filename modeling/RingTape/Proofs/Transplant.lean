import RingTape.Proofs.Locality

/-!
What is left alone when whole trees come and go: a new tree, a tree that is discarded, a tree that is put under a cell,
and the children of a cell that are handed over to another one.
-/

namespace RingTape

set_option autoImplicit false

namespace Store

section Operations

variable {store : Store} (sound : store.Sound)

include sound

/-- The table without one of the trees. -/
theorem has_uprooted {top : Cell} (isTop : top ∈ store.trees) (id : CellId) (entry : Entry) :
    (store.uprooted top.id).Has id entry ↔ store.Has id entry ∧ id ∉ top.ids := by
  constructor
  · rintro ⟨node, present, rfl, rfl⟩
    obtain ⟨inside, outside⟩ := (mem_nodes_uprooted sound isTop node).mp present
    exact ⟨Cell.told_of_mem inside, outside⟩
  · rintro ⟨⟨node, inside, rfl, rfl⟩, outside⟩
    exact Cell.told_of_mem ((mem_nodes_uprooted sound isTop node).mpr ⟨inside, outside⟩)

theorem spares_discard (id : CellId) :
    Spares store (leave (discard id) store) [] (fun other => other ∉ (leave (discard id) store).ids) := by
  cases found : store.cell? id with
  | none => exact spares_of_refused sound ((refused_cell found).bind _) _ _
  | some top =>
      obtain ⟨inside, same⟩ := mem_nodes_of_cell? found
      subst same
      cases above : store.parent? top.id with
      | some parent => exact spares_of_refused sound ⟨_, run_discard_attached sound inside above⟩ _ _
      | none =>
          have isTop := (mem_trees_iff sound inside).mpr above
          have table := has_uprooted sound isTop
          have distinct := sound.distinct
          rw [leave_of_ok (run_discard sound isTop)]
          have rewrites : Rewrites store
              ⟨Cell.without top.id store.trees, store.pool.give (top.id :: top.descendants)⟩ (fun _ => False)
              (fun id => id ∈ top.ids) := by
            refine ⟨?_, ?_, ?_, ?_⟩
            · intro id entry has _ stays
              exact (table id entry).mpr ⟨has, stays⟩
            · intro id entry has
              exact Or.inr (Or.inl ((table id entry).mp has).1)
            · intro id entry has under child ofRing
              obtain ⟨node, lower, rfl, rfl⟩ := has.node distinct inside under
              exact Cell.mem_ids_of_entry lower ofRing
            · intro id entry has child ofRing under
              refine Or.inr (has.mem_ids_of_child distinct ofRing inside under ?_)
              rintro rfl
              have linked := (parentLink_eq_some_iff_has distinct id top.id).mpr ⟨entry, has, ofRing⟩
              simp [parentLink, above] at linked
          have spares : Spares store _ [] _ := rewrites.spares distinct (sound_discard sound isTop).distinct
            (fun _ => False.elim) fun _ _ => False.elim
          apply spares.mono
          intro id live under stays
          obtain ⟨entry, has⟩ := exists_has stays
          exact ((table id entry).mp has).2 under

/-- A new tree has no slot in common with the others. -/
theorem spares_planted {after : Store} {new : Cell} (trees : after.trees = new :: store.trees)
    (slots : ∀ id, (after.ids.count id : Int) = after.pool.usage id) (freed : CellId → Prop) :
    Spares store after [] freed := by
  have afterDistinct : after.ids.Nodup := by
    rw [List.nodup_iff_count_le_one]
    intro id
    have counted := slots id
    have most := Pool.usage_le_one after.pool id
    omega
  have apart (id : CellId) (own : id ∈ new.ids) : id ∉ store.ids := by
    intro live
    rw [ids, trees, Cell.forestIds_cons, List.nodup_append] at afterDistinct
    exact afterDistinct.2.2 id own id live rfl
  have table (id : CellId) (entry : Entry) : after.Has id entry ↔
      (∃ node ∈ new.nodes, node.id = id ∧ node.entry = entry) ∨ store.Has id entry := by
    rw [Has, trees]
    exact Cell.told_cons
  have rewrites : Rewrites store after (fun _ => False) (fun _ => False) := by
    refine ⟨?_, ?_, fun _ _ _ => False.elim, fun _ _ _ _ _ => False.elim⟩
    · intro id entry has _ _
      exact (table id entry).mpr (Or.inr has)
    · intro id entry has
      rcases (table id entry).mp has with ⟨node, own, rfl, rfl⟩ | old
      · refine Or.inr (Or.inr ?_)
        intro child ofRing live
        exact apart child (Cell.mem_ids_of_entry own ofRing) live
      · exact Or.inr (Or.inl old)
  have spares : Spares store after [] (fun _ => False) :=
    rewrites.spares sound.distinct afterDistinct (fun _ => False.elim) fun _ _ => False.elim
  exact spares.mono fun _ _ => False.elim

section Graft

variable {host branch : Cell} (inside : host ∈ store.nodes) (isTop : branch ∈ store.trees)
  (apart : host.id ∉ branch.ids) {value : Num} {wide ring : Ring Cell} {pool : Pool} {new : List Cell}
  (accounts : Accounts host wide store.pool pool new []) (members : ring.members.Perm (branch :: wide.members))

include inside accounts members

/-- A child after the graft is the tree put in, an old child, or new. -/
theorem member_graft {member : Cell} (ofRing : member ∈ ring.members) :
    member = branch ∨ member ∈ host.ring.members ∨ ∀ id ∈ member.ids, id ∉ store.ids := by
  rcases List.mem_cons.mp (members.mem_iff.mp ofRing) with same | ofWide
  · exact Or.inl same
  · rcases accounts.made sound inside ofWide with old | fresh
    · exact Or.inr (Or.inl old)
    · refine Or.inr (Or.inr ?_)
      intro id own live
      exact not_lost_nil host id (fresh id own live)

include isTop apart

theorem distinct_graft : ((store.uprooted branch.id).replace host.id value ring pool).ids.Nodup := by
  have uprooting := Cell.ForestSound.uproot sound isTop
  have present := (mem_nodes_uprooted sound isTop host).mpr ⟨inside, apart⟩
  rw [List.nodup_iff_count_le_one]
  intro id
  have counts : ((store.uprooted branch.id).replace host.id value ring pool).ids.count id +
      (Cell.forestIds host.ring.members).count id =
        (store.uprooted branch.id).ids.count id + (Cell.forestIds ring.members).count id :=
    Cell.count_forestReplace uprooting.distinct value ring id present
  have others : ((store.uprooted branch.id).ids.count id : Int) = store.pool.usage id - branch.ids.count id :=
    uprooting.slots id
  have grafted := (Cell.forestIds_perm members).count_eq id
  have grown := (Cell.forestIds_perm accounts.members).count_eq id
  have balance := accounts.counted id
  have most := Pool.usage_le_one pool id
  simp only [Cell.forestIds_cons, Cell.forestIds_append, Cell.forestIds_nil, List.nil_append, List.count_append,
    List.count_nil] at grafted grown balance
  omega

theorem rewrites_graft :
    Rewrites store ((store.uprooted branch.id).replace host.id value ring pool) (fun id => id = host.id)
      (fun _ => False) := by
  have distinct := sound.distinct
  have uprooting := Cell.ForestSound.uproot sound isTop
  have present := (mem_nodes_uprooted sound isTop host).mpr ⟨inside, apart⟩
  have table (id : CellId) (entry : Entry) :
      ((store.uprooted branch.id).replace host.id value ring pool).Has id entry ↔
        (id = host.id ∧ entry = ⟨value, ring.map Cell.id⟩) ∨ Cell.Told ring.members id entry ∨
          ((store.uprooted branch.id).Has id entry ∧ id ∉ host.ids) :=
    Cell.told_forestReplace uprooting.distinct present value ring id entry
  refine ⟨?_, ?_, fun _ _ _ => False.elim, fun _ _ _ _ _ => False.elim⟩
  · intro id entry has other _
    apply (table id entry).mpr
    by_cases moved : id ∈ branch.ids
    · obtain ⟨node, lower, rfl, rfl⟩ := has.node distinct (tree_mem_nodes isTop) moved
      exact Or.inr (Or.inl (Cell.told_member (members.mem_iff.mpr List.mem_cons_self) lower))
    · by_cases below : id ∈ host.ids
      · obtain ⟨member, child, under⟩ := Cell.exists_member_of_mem_ids below other
        obtain ⟨node, lower, rfl, rfl⟩ := has.node distinct (member_mem_nodes inside child) under
        have ofWide := (accounts.kept child).resolve_left List.not_mem_nil
        exact Or.inr (Or.inl (Cell.told_member (members.mem_iff.mpr (List.mem_cons_of_mem _ ofWide)) lower))
      · exact Or.inr (Or.inr ⟨(has_uprooted sound isTop id entry).mpr ⟨has, moved⟩, below⟩)
  · intro id entry has
    rcases (table id entry).mp has with ⟨same, _⟩ | ⟨node, below, rfl, rfl⟩ | ⟨outside, _⟩
    · exact Or.inl same
    · obtain ⟨member, ofRing, under⟩ := (Cell.mem_forestNodes _ _).mp below
      rcases member_graft sound inside accounts members ofRing with rfl | old | fresh
      · exact Or.inr (Or.inl (Cell.told_of_mem (Cell.forestNodes_subset _ _ (tree_mem_nodes isTop) _ under)))
      · exact Or.inr (Or.inl (Cell.told_of_mem
          (Cell.forestNodes_subset _ _ (member_mem_nodes inside old) _ under)))
      · refine Or.inr (Or.inr ?_)
        intro child ofNode live
        exact fresh child (Cell.mem_ids_of_entry under ofNode) live
    · exact Or.inr (Or.inl ((has_uprooted sound isTop id entry).mp outside).1)

theorem spares_graft (freed : CellId → Prop) :
    Spares store ((store.uprooted branch.id).replace host.id value ring pool) (branch.id :: store.family host.id)
      freed := by
  have distinct := sound.distinct
  have afterDistinct : ((store.uprooted branch.id).replace host.id value ring pool).ids.Nodup :=
    distinct_graft sound inside isTop apart accounts members
  have rewrites : Rewrites store ((store.uprooted branch.id).replace host.id value ring pool)
      (fun id => id = host.id) (fun _ => False) := rewrites_graft sound inside isTop apart accounts members
  rw [family_of_mem sound inside]
  refine Spares.mono (rewrites.spares distinct afterDistinct ?_ ?_) fun _ _ => False.elim
  · rintro id rfl
    exact List.mem_cons_of_mem _ List.mem_cons_self
  rintro id entry rfl (here | there) child ofRing live
  · have old := here.children distinct inside ofRing
    exact Or.inr (List.mem_cons_of_mem _ (List.mem_cons_of_mem _ old))
  · have present := (mem_nodes_uprooted sound isTop host).mpr ⟨inside, apart⟩
    have uprooted : (store.uprooted branch.id).ids.Nodup := (Cell.ForestSound.uproot sound isTop).distinct
    have replaced := host_mem_replace uprooted present value ring pool
    obtain ⟨member, among, rfl⟩ := List.mem_map.mp (Has.children afterDistinct replaced there ofRing)
    rcases member_graft sound inside accounts members among with rfl | old | fresh
    · exact Or.inr List.mem_cons_self
    · exact Or.inr (List.mem_cons_of_mem _ (List.mem_cons_of_mem _ (List.mem_map.mpr ⟨member, old, rfl⟩)))
    · exact absurd live (fresh member.id member.id_mem_ids)

end Graft

theorem spares_insertChild (parent child : CellId) (freed : CellId → Prop) :
    Spares store (leave (insertChild parent child) store) (child :: store.family parent) freed := by
  rcases insertChild_cases sound parent child with
    refused | ⟨host, inside, branch, isTop, rfl, rfl, apart, nonnegative⟩
  · exact spares_of_refused sound refused _ _
  · obtain ⟨wide, between, ran, grown, _⟩ := run_insertChild sound inside isTop apart nonnegative
    obtain ⟨fresh, accounts⟩ := Accounts.of_grown grown
    have members : (graftedRing (host.withRing host.value wide) branch).members.Perm (branch :: wide.members) :=
      (Ring.members_settle_perm _ _).trans
        (Ring.members_insertAt_perm wide wide.anchor branch (by simp [Ring.anchor, Ring.size]))
    rw [leave_of_ok ran]
    exact spares_graft sound inside isTop apart accounts members freed

/-- The table after a cell has lost all its children. -/
theorem has_clear {host : Cell} (inside : host ∈ store.nodes) (value : Num) (pool : Pool) (id : CellId)
    (entry : Entry) :
    (store.replace host.id value Ring.empty pool).Has id entry ↔
      (id = host.id ∧ entry = ⟨value, Ring.empty⟩) ∨ (store.Has id entry ∧ id ∉ host.ids) := by
  have table : (store.replace host.id value Ring.empty pool).Has id entry ↔ _ :=
    Cell.told_forestReplace sound.distinct inside value Ring.empty id entry
  have none : ¬ Cell.Told (Ring.empty : Ring Cell).members id entry := by
    rintro ⟨node, below, _⟩
    exact absurd below List.not_mem_nil
  rw [table, or_iff_right none]
  rfl

section Move

variable {target source : Cell} (targetInside : target ∈ store.nodes) (sourceInside : source ∈ store.nodes)
  (notBelow : source.id ∉ target.ids) (notAbove : target.id ∉ source.ids)

include targetInside sourceInside notBelow notAbove

/-- The table after a move: the target has the entry of the source, and what was below it is no more. -/
theorem has_moveWithin (id : CellId) (entry : Entry) :
    (store.handover target source).Has id entry ↔
        (id = target.id ∧ entry = ⟨source.value, source.ring.map Cell.id⟩) ∨
        (id = source.id ∧ entry = ⟨source.value, Ring.empty⟩) ∨ Cell.Told source.ring.members id entry ∨
          (store.Has id entry ∧ id ∉ target.ids ∧ id ∉ source.ids) := by
  have emptied := sound.clear targetInside target.value
  have present := mem_nodes_replace_of_apart sound targetInside sourceInside notBelow notAbove target.value
    Ring.empty (store.pool.give target.descendants)
  have distinct := (forestSound_released sound targetInside sourceInside notBelow notAbove).distinct
  have targetPresent := target_mem_released sound targetInside sourceInside notBelow notAbove
  -- The target is emptied, the source is emptied, and the target is filled.
  have first := has_clear sound targetInside target.value (store.pool.give target.descendants) id entry
  have second : (store.released target source).Has id entry ↔ _ :=
    has_clear emptied present source.value (store.pool.give target.descendants) id entry
  have third : (store.handover target source).Has id entry ↔ _ :=
    Cell.told_forestReplace distinct targetPresent source.value source.ring id entry
  have alone : id ∈ (target.withRing target.value Ring.empty).ids ↔ id = target.id := by
    simp [Cell.ids_eq, Ring.empty, Ring.members]
  have other : id = source.id → id ≠ target.id := by
    rintro rfl same
    exact notBelow (same ▸ target.id_mem_ids)
  have outside : id ∉ target.ids → id ≠ target.id := by
    rintro absent rfl
    exact absent target.id_mem_ids
  constructor
  · intro has
    rcases third.mp has with here | handed | ⟨kept, different⟩
    · exact Or.inl here
    · exact Or.inr (Or.inr (Or.inl handed))
    · rcases second.mp kept with emptiedSource | ⟨stayed, notSource⟩
      · exact Or.inr (Or.inl emptiedSource)
      · rcases first.mp stayed with ⟨top, _⟩ | ⟨old, notTarget⟩
        · exact absurd (alone.mpr top) different
        · exact Or.inr (Or.inr (Or.inr ⟨old, notTarget, notSource⟩))
  · rintro (here | ⟨same, empty⟩ | handed | ⟨old, notTarget, notSource⟩)
    · exact third.mpr (Or.inl here)
    · refine third.mpr (Or.inr (Or.inr ⟨second.mpr (Or.inl ⟨same, empty⟩), ?_⟩))
      exact fun top => other same (alone.mp top)
    · exact third.mpr (Or.inr (Or.inl handed))
    · refine third.mpr (Or.inr (Or.inr ⟨second.mpr (Or.inr ⟨first.mpr (Or.inr ⟨old, notTarget⟩), notSource⟩), ?_⟩))
      exact fun top => outside notTarget (alone.mp top)

theorem rewrites_moveWithin :
    Rewrites store (store.handover target source) (fun id => id = target.id ∨ id = source.id)
      (Lost target target.ring.members) := by
  have distinct := sound.distinct
  have table := has_moveWithin sound targetInside sourceInside notBelow notAbove
  refine ⟨?_, ?_, ?_, ?_⟩
  · intro id entry has same stays
    rw [not_or] at same
    apply (table id entry).mpr
    have outside : id ∉ target.ids := by
      intro below
      obtain ⟨member, child, under⟩ := Cell.exists_member_of_mem_ids below same.1
      exact stays ⟨member, child, child, under⟩
    by_cases below : id ∈ source.ids
    · obtain ⟨member, child, under⟩ := Cell.exists_member_of_mem_ids below same.2
      obtain ⟨node, lower, rfl, rfl⟩ := has.node distinct (member_mem_nodes sourceInside child) under
      exact Or.inr (Or.inr (Or.inl (Cell.told_member child lower)))
    · exact Or.inr (Or.inr (Or.inr ⟨has, outside, below⟩))
  · intro id entry has
    rcases (table id entry).mp has with ⟨same, _⟩ | ⟨same, _⟩ | ⟨node, below, rfl, rfl⟩ | ⟨old, _⟩
    · exact Or.inl (Or.inl same)
    · exact Or.inl (Or.inr same)
    · obtain ⟨member, child, under⟩ := (Cell.mem_forestNodes _ _).mp below
      exact Or.inr (Or.inl (Cell.told_of_mem
        (Cell.forestNodes_subset _ _ (member_mem_nodes sourceInside child) _ under)))
    · exact Or.inr (Or.inl old)
  · intro id entry has lost
    exact Lost.down distinct targetInside has lost
  · intro id entry has child ofRing lost
    rcases Lost.up distinct targetInside has ofRing lost with top | lower
    · exact Or.inl (Or.inl top)
    · exact Or.inr lower

theorem spares_handover :
    Spares store (store.handover target source) (target.id :: store.family source.id)
      (Lost target target.ring.members) := by
  have distinct := sound.distinct
  have afterDistinct := (sound_moveWithin sound targetInside sourceInside notBelow notAbove).distinct
  have table := has_moveWithin sound targetInside sourceInside notBelow notAbove
  rw [family_of_mem sound sourceInside]
  apply (rewrites_moveWithin sound targetInside sourceInside notBelow notAbove).spares distinct afterDistinct
  · rintro id (rfl | rfl)
    · exact List.mem_cons_self
    · exact List.mem_cons_of_mem _ List.mem_cons_self
  have handed (child : CellId) (ofRing : child ∈ source.ring.members.map Cell.id) :
      child ∈ target.id :: source.id :: source.ring.members.map Cell.id :=
    List.mem_cons_of_mem _ (List.mem_cons_of_mem _ ofRing)
  rintro id entry (rfl | rfl) (here | there) child ofRing live
  · obtain ⟨member, old, rfl⟩ := List.mem_map.mp (here.children distinct targetInside ofRing)
    exact Or.inl ⟨member, old, old, member.id_mem_ids⟩
  · have told := (table target.id ⟨source.value, source.ring.map Cell.id⟩).mpr (Or.inl ⟨rfl, rfl⟩)
    rw [there.unique afterDistinct told] at ofRing
    exact Or.inr (handed child ((source.mem_members_entry child).mp ofRing))
  · exact Or.inr (handed child (here.children distinct sourceInside ofRing))
  · have told := (table source.id ⟨source.value, Ring.empty⟩).mpr (Or.inr (Or.inl ⟨rfl, rfl⟩))
    rw [there.unique afterDistinct told] at ofRing
    exact absurd ofRing List.not_mem_nil

/-- The slots below the target are given back and none is taken. -/
theorem mem_ids_moveWithin (id : CellId) :
    id ∈ (store.handover target source).ids ↔ id ∈ store.ids ∧ id ∉ target.descendants := by
  have before : (store.ids.count id : Int) = store.pool.usage id := sound.slots id
  have after : ((store.handover target source).ids.count id : Int) = (store.pool.give target.descendants).usage id :=
    (sound_moveWithin sound targetInside sourceInside notBelow notAbove).slots id
  have most := Pool.usage_le_one store.pool id
  rw [Pool.usage_give] at after
  rw [← List.count_pos_iff, ← List.count_pos_iff, ← List.count_pos_iff]
  omega

theorem dropped_moveWithin {id : CellId} (lost : Lost target target.ring.members id) :
    id ∉ (store.handover target source).ids := by
  obtain ⟨old, child, _, under⟩ := lost
  have below : id ∈ target.descendants :=
    (Cell.descendants_perm target).mem_iff.mpr ((Cell.mem_forestIds_iff_mem_ids _ _).mpr ⟨old, child, under⟩)
  intro stays
  exact ((mem_ids_moveWithin sound targetInside sourceInside notBelow notAbove id).mp stays).2 below

end Move

theorem spares_moveWithin (target source : CellId) :
    Spares store (leave (moveWithin target source) store) (target :: store.family source)
      (fun id => id ∉ (leave (moveWithin target source) store).ids) := by
  rcases moveWithin_cases sound target source with
    refused | same | ⟨taker, takerInside, giver, giverInside, rfl, rfl, below, above⟩
  · exact spares_of_refused sound refused _ _
  · rw [leave_of_ok (run_moveWithin_self same store)]
    exact spares_refl sound.distinct _ _
  · rw [leave_of_ok (run_moveWithin sound takerInside giverInside below above)]
    apply (spares_handover sound takerInside giverInside below above).mono
    intro id _ lost
    exact dropped_moveWithin sound takerInside giverInside below above lost

end Operations

end Store

end RingTape
