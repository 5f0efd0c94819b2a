import RingTape.Proofs.RingTree
import RingTape.Proofs.Views

/-!
The operations on memory as they look from outside, where every child is there from the start: what each one
does to a view. In the store a walk may have to make cells, and one cell may have its ring open where another
has it closed; a store that shows a view shows after the operation what the operation makes of the view.
-/

namespace RingTape

set_option autoImplicit false

/-- The fault without the numbers of its cells. -/
def Fault.unnumbered : Fault → Fault
  | .stale _ => .stale ⟨0⟩
  | .detached _ => .detached ⟨0⟩
  | .barren _ value => .barren ⟨0⟩ value
  | .attached _ => .attached ⟨0⟩
  | .overlap _ _ => .overlap ⟨0⟩ ⟨0⟩

namespace View

/-- Something done to the head's ring, given the view from the cell above and the head's index. -/
def inRing (act : View → Nat → View) (view : View) : Except Fault View :=
  match view.trail with
  | [] => .error (.detached ⟨0⟩)
  | index :: up => .ok (act ⟨view.content, up⟩ index)

/-- The head so many places further on in its ring. -/
def stride (distance : Int) : View → Except Fault View :=
  inRing fun above index => above.down (Ring.turn above.here.value.places index distance)

/-- The head on the anchor of its ring. -/
def restart : View → Except Fault View :=
  inRing fun above _ => above.down 0

/-- The ring turned until the head comes first. -/
def rotate : View → Except Fault View :=
  inRing fun above index =>
    (above.put (.node above.here.value (above.here.children.rotate index))).down 0

/-- A new cell in the ring, and the head on it; its place follows from the size of the ring and the head's index. -/
def insert (place : Nat → Nat → Nat) : View → Except Fault View :=
  inRing fun above index =>
    let position := place above.here.value.places index
    (above.put (.node (above.here.value + 1) (above.here.children.insertIdx position Content.zero))).down position

/-- The list without the item at an index, read from the heir on if that one came first. -/
def without {α : Type} (items : List α) (gone heir : Nat) : List α :=
  if gone = 0 then (items.eraseIdx 0).rotate (heir - 1) else items.eraseIdx gone

/-- Where the heir then is. -/
def heirPlace (gone heir : Nat) : Nat :=
  if gone = 0 then 0 else if heir < gone then heir else heir - 1

theorem map_without {α β : Type} (change : α → β) (items : List α) (gone heir : Nat) :
    (without items gone heir).map change = without (items.map change) gone heir := by
  unfold without
  split
  · rw [List.map_rotate, List.eraseIdx_map]
  · rw [List.eraseIdx_map]

theorem without_heirPlace {α : Type} {items : List α} {gone heir : Nat} (apart : heir ≠ gone)
    (bound : heir < items.length) : (without items gone heir)[heirPlace gone heir]? = items[heir]? := by
  unfold without heirPlace
  by_cases first : gone = 0
  · rw [if_pos first, if_pos first]
    have length : (items.eraseIdx 0).length = items.length - 1 := List.length_eraseIdx_of_lt (by omega)
    rw [List.getElem?_rotate (by omega), length, Nat.zero_add, Nat.mod_eq_of_lt (by omega), List.getElem?_eraseIdx,
      if_neg (by omega)]
    congr 1
    omega
  · rw [if_neg first, if_neg first, List.getElem?_eraseIdx]
    by_cases before : heir < gone
    · rw [if_pos before, if_pos before]
    · rw [if_neg before, if_neg (by omega)]
      congr 1
      omega

/-- The head's neighbour taken out of the ring, and the head on the one behind it. -/
def delete (unit : Int) : View → Except Fault View :=
  inRing fun above index =>
    if above.here.value = 1 then
      above.put Content.zero
    else
      let gone := Ring.turn above.here.value.places index unit
      let heir := Ring.turn above.here.value.places index (unit + unit)
      (above.put (.node (above.here.value - 1) (without above.here.children gone heir))).down (heirPlace gone heir)

/-- The head on the first child. -/
def descend (view : View) : Except Fault View :=
  if view.here.value.places = 0 then .error (.barren ⟨0⟩ view.here.value) else .ok (view.down 0)

/-- The ring that the head is in can take one more cell. -/
def HasRoom (view : View) : Prop :=
  ∀ index up, view.trail = index :: up → (⟨view.content, up⟩ : View).here.value.toInt < Num.greatest

end View

namespace Store

/--
The program does to the store what is aimed at. If that is a fault, the program fails with it and the store
shows what it showed.
-/
def Attains {α γ : Type} (store : Store) (view : View) (head : CellId) (program : StoreM α) (aim : Except Fault γ)
    (meets : γ → α → Store → Prop) : Prop :=
  match aim with
  | .ok goal => ∃ result reached, program store = .ok result reached ∧ meets goal result reached
  | .error fault => ∃ refusal reached, program store = .error refusal reached ∧ refusal.unnumbered = fault ∧
      reached.Shows view head

end Store

/-- From where a head shows the view, the program comes out at the cell where the head is to go. -/
def View.Leads (view : View) (program : CellId → StoreM CellId) (aim : Except Fault View) : Prop :=
  ∀ (store : Store) head, store.Shows view head →
    store.Attains view head (program head) aim fun next target reached => reached.Shows next target

/-- From where a head shows the view, the program gives the answer, and the head stays in its slot. -/
def View.Serves {α : Type} (view : View) (program : CellId → StoreM α) (answer : α) (aim : Except Fault View) : Prop :=
  ∀ (store : Store) head, store.Shows view head →
    store.Attains view head (program head) aim fun next result reached => result = answer ∧ reached.Shows next head

namespace Store

variable {store : Store} {view : View} {host member : Cell} {index : Nat}

/-- An operation among siblings is refused on the top, and elsewhere finds the head seated. -/
theorem attains_inRing {α : Type} {head : CellId} {program : StoreM α} {act : View → Nat → View}
    {meets : View → α → Store → Prop} (shows : store.Shows view head)
    (refused : ∀ fault, parentOf head store = .error fault store → program store = .error fault store)
    (seated : ∀ index up, view.trail = index :: up → ∀ host member, store.Depicts ⟨view.content, up⟩ host →
      host.Seats index member → member.id = head → ∃ result reached, program store = .ok result reached ∧
        meets (act ⟨view.content, up⟩ index) result reached) :
    store.Attains view head program (view.inRing act) meets := by
  obtain ⟨host, depicts, rfl⟩ := shows
  cases trail : view.trail with
  | nil =>
      obtain ⟨root, rooted⟩ := depicts.rooted
      have ran := run_parentOf_of_top rooted (mem_ids_of_mem_nodes depicts.mem) (depicts.parent?_eq_none trail)
      simp only [View.inRing, trail]
      exact ⟨_, _, refused _ ran, rfl, host, depicts, rfl⟩
  | cons index up =>
      obtain ⟨parent, above, seat⟩ := depicts.above trail
      simp only [View.inRing, trail]
      exact seated index up trail parent host above seat rfl

/-- A walk that may have made cells on the way. -/
theorem Depicts.shows_grown {reached : Cell} {ring : Ring Cell} {pool : Pool} {place : Nat}
    (depicts : store.Depicts view host) (grown : host.Grown ring store.pool pool)
    (there : (host.withRing host.value ring).Seats place reached) :
    (store.replace host.id host.value ring pool).Shows (view.down place) reached.id :=
  ⟨reached, (depicts.grow grown).down there, rfl⟩

/-- A cell with new children, and the head on one of them. -/
theorem Depicts.shows_edited {reached : Cell} {value : Num} {ring : Ring Cell} {pool : Pool} {place : Nat}
    {children : List Content} (depicts : store.Depicts view host)
    (sound : (store.replace host.id value ring pool).Sound)
    (contents : (host.withRing value ring).seats.map Cell.Seat.content = children)
    (there : (host.withRing value ring).Seats place reached) :
    (store.replace host.id value ring pool).Shows ((view.put (.node value children)).down place) reached.id := by
  have replaced := depicts.replace sound
  rw [Cell.content_eq, Cell.value_withRing, contents] at replaced
  exact ⟨reached, replaced.down there, rfl⟩

theorem Strides.leads {step : CellId → StoreM CellId} {distance : Int} (strides : Strides step distance)
    (refused : ∀ (store : Store) id fault, parentOf id store = .error fault store →
      step id store = .error fault store) (view : View) : view.Leads step (view.stride distance) := by
  intro store head shows
  apply attains_inRing shows (refused store head)
  rintro index up _ host member depicts seat rfl
  obtain ⟨reached, ring, pool, ran, grown, there⟩ := strides store host member index depicts.sound depicts.mem seat
  rw [depicts.here_value]
  exact ⟨_, _, ran, depicts.shows_grown grown there⟩

theorem leads_child (view : View) : view.Leads child view.descend := by
  rintro store head ⟨host, depicts, rfl⟩
  rw [View.descend, depicts.here_value]
  split
  case isTrue barren =>
      exact ⟨_, _, run_child_barren depicts.sound.distinct depicts.mem depicts.fits barren, rfl, host, depicts, rfl⟩
  case isFalse fertile =>
      obtain ⟨reached, ring, pool, ran, grown, there⟩ :=
        run_child depicts.sound depicts.mem (Nat.pos_of_ne_zero fertile)
      exact ⟨_, _, ran, depicts.shows_grown grown there⟩

theorem leads_restart (view : View) :
    view.Leads (fun id => parentOf id >>= fun parent => child parent.id) view.restart := by
  intro store head shows
  apply attains_inRing shows fun _ => run_bind_error
  rintro index up _ host member depicts seat rfl
  obtain ⟨found, _⟩ := parent?_of_seat depicts.sound depicts.mem seat
  obtain ⟨_, less⟩ := value_pos_of_seat depicts.sound depicts.mem seat
  obtain ⟨reached, ring, pool, ran, grown, there⟩ := run_child depicts.sound depicts.mem (by omega)
  refine ⟨_, _, ?_, depicts.shows_grown grown there⟩
  rw [run_bind_ok (run_parentOf_of_some found)]
  exact ran

theorem serves_makeFirst (view : View) : view.Serves makeFirst () view.rotate := by
  intro store head shows
  apply attains_inRing shows fun _ => run_bind_error
  rintro index up _ host member depicts seat rfl
  obtain ⟨ring, ran, fits, members, roster⟩ := run_makeFirst depicts.sound depicts.mem seat
  refine ⟨_, _, ran, rfl, ?_⟩
  rw [depicts.here_value]
  apply depicts.shows_edited (depicts.sound.rearrange depicts.mem fits members)
  · rw [seats_of_rotated roster, List.map_rotate, depicts.here_children]
  · obtain ⟨bound, same⟩ := List.getElem?_eq_some_iff.mp seat
    rw [Cell.Seats, Cell.value_withRing, Cell.ring_withRing, roster, List.getElem?_rotate (by omega), Nat.zero_add,
      Nat.mod_eq_of_lt bound]
    exact seat

theorem Depicts.grown_children {wide : Ring Cell} {between : Pool} (depicts : store.Depicts view host)
    (grown : host.Grown wide store.pool between) :
    (host.withRing host.value wide).seats.map Cell.Seat.content = view.here.children :=
  (depicts.grow grown).here_children.symm

/-- What a growth followed by an insertion shows. -/
theorem Depicts.shows_spliced {wide ring : Ring Cell} {between after : Pool} {position : Nat} {fresh : CellId}
    (depicts : store.Depicts view host) (grown : host.Grown wide store.pool between)
    (spliced : (host.withRing host.value wide).Spliced position fresh 0 ring between after)
    (bound : position ≤ host.value.places) :
    (store.replace host.id (host.value + 1) ring after).Shows
      ((view.put (.node (view.here.value + 1) (view.here.children.insertIdx position Content.zero))).down position)
      fresh := by
  have roster := spliced.roster
  rw [Cell.value_withRing, Cell.ring_withRing] at roster
  have there : (host.withRing (host.value + 1) ring).Seats position (Cell.leaf fresh 0) := by
    rw [Cell.Seats, Cell.value_withRing, Cell.ring_withRing, roster, List.getElem?_insertIdx_self,
      if_pos (by rw [Ring.length_roster _ _ grown.fits.size_le]; exact bound)]
  rw [depicts.here_value, ← depicts.grown_children grown]
  apply depicts.shows_edited (depicts.sound.splice depicts.mem grown spliced) _ there
  rw [seats_of_spliced spliced, List.map_insertIdx]
  rfl

theorem leads_insertBefore {view : View} (room : view.HasRoom) :
    view.Leads (fun id => insertBefore id 0) (view.insert fun size index => if index = 0 then size else index) := by
  intro store head shows
  apply attains_inRing shows fun _ refused => run_bind_error (run_bind_error refused)
  rintro index up trail host member depicts seat rfl
  have roomy := room index up trail
  rw [depicts.here_value] at roomy
  obtain ⟨_, less⟩ := value_pos_of_seat depicts.sound depicts.mem seat
  obtain ⟨fresh, wide, ring, between, after, ran, grown, spliced⟩ :=
    run_insertBefore depicts.sound depicts.mem seat 0 roomy
  have size : (⟨view.content, up⟩ : View).here.value.places = host.value.places := by rw [depicts.here_value]
  refine ⟨_, _, ran, ?_⟩
  dsimp only
  rw [size]
  exact depicts.shows_spliced grown spliced (by split <;> omega)

theorem leads_insertAfter {view : View} (room : view.HasRoom) :
    view.Leads (fun id => insertAfter id 0) (view.insert fun _ index => index + 1) := by
  intro store head shows
  apply attains_inRing shows fun _ refused => run_bind_error (run_bind_error refused)
  rintro index up trail host member depicts seat rfl
  have roomy := room index up trail
  rw [depicts.here_value] at roomy
  obtain ⟨_, less⟩ := value_pos_of_seat depicts.sound depicts.mem seat
  obtain ⟨fresh, wide, ring, between, after, ran, grown, spliced⟩ :=
    run_insertAfter depicts.sound depicts.mem seat 0 roomy
  exact ⟨_, _, ran, depicts.shows_spliced grown spliced less⟩

theorem leads_deleteAlong {step : CellId → StoreM CellId} {unit : Int} (strides : Strides step unit)
    (sign : unit = 1 ∨ unit = -1) (view : View) : view.Leads (deleteAlong step) (view.delete unit) := by
  intro store head shows
  apply attains_inRing shows fun _ => run_bind_error
  rintro index up _ host member depicts seat rfl
  dsimp only
  rw [depicts.here_value]
  by_cases last : host.value = 1
  · rw [if_pos last]
    refine ⟨_, _, run_deleteAlong_last depicts.sound depicts.mem seat last step, ?_⟩
    exact ⟨_, depicts.replace (depicts.sound.clear depicts.mem 0), rfl⟩
  · rw [if_neg last]
    have several := two_le_places_of_seat depicts.sound depicts.mem seat last
    have apart := Ring.turn_twice_ne host.value.places index sign several
    obtain ⟨gone, survivor, wide, ring, between, ran, grown, survives, _, severed⟩ :=
      run_deleteAlong depicts.sound depicts.mem seat last strides sign
    have roster : ring.roster (host.value - 1) = View.without (wide.roster host.value) _ _ := severed.roster
    refine ⟨_, _, ran, ?_⟩
    rw [← depicts.grown_children grown]
    apply depicts.shows_edited (depicts.sound.sever depicts.mem grown severed)
    · rw [seats_of_severed severed]
      exact View.map_without _ _ _ _
    · rw [Cell.Seats, Cell.value_withRing, Cell.ring_withRing, roster, View.without_heirPlace apart]
      · exact survives
      · exact (List.getElem?_eq_some_iff.mp survives).1

theorem serves_setValue (view : View) (value : Num) :
    view.Serves (fun id => setValue id value) () (.ok (view.put (Content.blank value))) := by
  rintro store head ⟨host, depicts, rfl⟩
  have replaced := depicts.replace (depicts.sound.clear depicts.mem value)
  have blank : (host.withRing value Ring.empty).content = Content.blank value := Cell.content_leaf host.id value
  rw [blank] at replaced
  exact ⟨_, _, run_setValue depicts.sound depicts.mem value, rfl, _, replaced, rfl⟩

theorem serves_copyFrom (view : View) {other : Store} {image : Cell} (sound : other.Sound)
    (present : image ∈ other.nodes) :
    view.Serves (fun id => copyFrom id other image.id) () (.ok (view.put image.content)) := by
  rintro store head ⟨host, depicts, rfl⟩
  have copied := depicts.sound.overwrite depicts.mem fun node below =>
    sound.rings node (Cell.forestNodes_subset _ _ present _ below)
  have replaced := depicts.replace copied
  rw [← Cell.content_snapshot, snapshot_copyOver, Cell.content_snapshot] at replaced
  have ran := run_overwrite depicts.sound depicts.mem image
  refine ⟨_, _, ?_, rfl, _, replaced, rfl⟩
  change copyFrom host.id other image.id store = _
  rw [copyFrom, cell?_of_mem sound.distinct present]
  exact ran

theorem Shows.run_isTop {head : CellId} (shows : store.Shows view head) :
    isTop head store = .ok view.trail.isEmpty store := by
  obtain ⟨host, depicts, rfl⟩ := shows
  rw [Store.run_isTop depicts.sound depicts.mem]
  cases trail : view.trail with
  | nil =>
      rw [depicts.parent?_eq_none trail]
      rfl
  | cons index up =>
      obtain ⟨parent, above, seat⟩ := depicts.above trail
      rw [(parent?_of_seat above.sound above.mem seat).1]
      rfl

theorem serves_isTop (view : View) : view.Serves isTop view.trail.isEmpty (.ok view) :=
  fun store _ shows => ⟨_, store, shows.run_isTop, rfl, shows⟩

theorem Shows.run_cell {head : CellId} (shows : store.Shows view head) :
    ∃ host, cell head store = .ok host store ∧ host.value = view.here.value := by
  obtain ⟨host, depicts, rfl⟩ := shows
  exact ⟨host, run_cell_of_some (cell?_of_mem depicts.sound.distinct depicts.mem), depicts.here_value.symm⟩

/-- Reading along a ring from a child on makes the members that are missing on the way, and does nothing else. -/
theorem run_valuesFrom (count : Nat) (sound : store.Sound) (inside : host ∈ store.nodes)
    (seat : host.Seats index member) (within : index + count ≤ host.value.places) :
    ∃ (ring : Ring Cell) (pool : Pool),
      valuesFrom count member.id store =
          .ok (((host.content.children.drop index).take count).map Content.value)
            (store.replace host.id host.value ring pool) ∧
        host.Grown ring store.pool pool ∧
        ∀ place, index ≤ place → place < index + count →
          ∃ child, (host.withRing host.value ring).Seats place child := by
  have fits := sound.rings host inside
  induction count generalizing store host member index with
  | zero =>
      refine ⟨host.ring, store.pool, ?_, Cell.Grown.refl fits _, fun place _ _ => by omega⟩
      rw [List.take_zero, replace_self sound.distinct inside]
      rfl
  | succ count induction =>
      have first := run_cell_of_some (cell?_of_mem sound.distinct (member_mem_nodes inside (seat.member fits)))
      have child : host.content.children[index]? = some member.content := by
        rw [Cell.content_eq, Content.children, Cell.seats, List.map_map, List.getElem?_map, seat]
        rfl
      obtain ⟨bound, same⟩ := List.getElem?_eq_some_iff.mp child
      rw [List.drop_eq_getElem_cons bound, same, List.take_succ_cons, List.map_cons, Cell.content_eq]
      cases count with
      | zero =>
          refine ⟨host.ring, store.pool, ?_, Cell.Grown.refl fits _, ?_⟩
          · rw [valuesFrom, run_bind_ok first, List.take_zero, replace_self sound.distinct inside]
            rfl
          · intro place after before
            have here : place = index := by omega
            exact ⟨member, here ▸ seat⟩
      | succ count =>
          obtain ⟨following, ring, pool, stepped, grown, there⟩ :=
            strides_next store host member index sound inside seat
          rw [Ring.turn_one _ _ (by omega), if_neg (by omega)] at there
          obtain ⟨wider, rest, read, more, filled⟩ := induction (sound.grow inside grown)
            (host_mem_replace sound.distinct inside host.value ring pool) there (by rw [Cell.value_withRing]; omega)
            grown.fits
          rw [grown.content fits, Cell.id_withRing, Cell.value_withRing, replace_replace] at read
          refine ⟨wider, rest, ?_, grown.trans fits more, ?_⟩
          · rw [valuesFrom, run_bind_ok first, run_bind_ok stepped, run_bind_ok read]
            rfl
          · intro place after before
            by_cases here : place = index
            · subst here
              exact ⟨member, more.kept _ _ (grown.kept _ _ seat)⟩
            · exact filled place (by omega) (by omega)

/-- The values of all children, read off from the first one on; the ring is complete then. -/
theorem run_values (sound : store.Sound) (inside : host ∈ store.nodes) (several : 0 < host.value.places) :
    ∃ (ring : Ring Cell) (pool : Pool),
      (child host.id >>= valuesFrom host.value.places) store =
          .ok (host.content.children.map Content.value) (store.replace host.id host.value ring pool) ∧
        host.Grown ring store.pool pool ∧ ring.size = host.value.places := by
  have fits := sound.rings host inside
  obtain ⟨first, ring, pool, entered, grown, there⟩ := run_child sound inside several
  obtain ⟨wider, rest, read, more, filled⟩ := run_valuesFrom host.value.places (sound.grow inside grown)
    (host_mem_replace sound.distinct inside host.value ring pool) there (by simp)
  have all : host.content.children.length ≤ host.value.places := Nat.le_of_eq (Cell.length_children fits)
  rw [grown.content fits, Cell.id_withRing, Cell.value_withRing, replace_replace, List.drop_zero,
    List.take_of_length_le all] at read
  refine ⟨wider, rest, ?_, grown.trans fits more, Ring.size_of_filled more.fits ?_⟩
  · rw [run_bind_ok entered]
    exact read
  · intro index within
    exact filled index (Nat.zero_le _) (by simpa using within)

/-- The cells that the reading makes do not show. -/
theorem serves_values (view : View) (several : 0 < view.here.value.places) :
    view.Serves (fun id => child id >>= valuesFrom view.here.value.places)
      (view.here.children.map Content.value) (.ok view) := by
  rintro store head ⟨host, depicts, rfl⟩
  rw [depicts.here_value] at several ⊢
  obtain ⟨ring, pool, read, grown, _⟩ := run_values depicts.sound depicts.mem several
  rw [depicts.here_eq]
  exact ⟨_, _, read, rfl, _, depicts.grow grown, rfl⟩

end Store

end RingTape
