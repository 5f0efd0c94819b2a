import Mathlib
import RingTape.Code.Keyword

/-!
What is suggested for a mistyped word is the nearest keyword. The distance of two texts is the least number of
characters to replace, insert or leave out on the way from one to the other, over all ways to align them. Two
texts differ by one character just if their distance is 1, and a word gets the keyword with the same letters, or
else the first keyword at distance 1.
-/

namespace RingTape

set_option autoImplicit false

/-- A way from one text to another, with the number of characters replaced, inserted or left out. -/
inductive Alignment : List Char → List Char → Nat → Prop where
  | done : Alignment [] [] 0
  | keep (char : Char) {left right : List Char} {cost : Nat} :
      Alignment left right cost → Alignment (char :: left) (char :: right) cost
  | replace (old new : Char) {left right : List Char} {cost : Nat} :
      Alignment left right cost → Alignment (old :: left) (new :: right) (cost + 1)
  | insert (new : Char) {left right : List Char} {cost : Nat} :
      Alignment left right cost → Alignment left (new :: right) (cost + 1)
  | leaveOut (old : Char) {left right : List Char} {cost : Nat} :
      Alignment left right cost → Alignment (old :: left) right (cost + 1)

namespace Alignment

/-- The least cost of an alignment, character by character. -/
def distance : List Char → List Char → Nat
  | [], right => right.length
  | left, [] => left.length
  | old :: left, new :: right =>
      min (distance left right + if old = new then 0 else 1)
        (min (distance (old :: left) right + 1) (distance left (new :: right) + 1))
termination_by left right => left.length + right.length

variable {left right : List Char} {cost : Nat}

theorem nil_left (right : List Char) : Alignment [] right right.length := by
  induction right with
  | nil => exact .done
  | cons char right induction => exact .insert char induction

theorem nil_right (left : List Char) : Alignment left [] left.length := by
  induction left with
  | nil => exact .done
  | cons char left induction => exact .leaveOut char induction

theorem refl (text : List Char) : Alignment text text 0 := by
  induction text with
  | nil => exact .done
  | cons char text induction => exact .keep char induction

/-- Some alignment costs no more than the distance. -/
theorem of_distance (left right : List Char) : Alignment left right (distance left right) := by
  fun_induction distance left right with
  | case1 right => exact nil_left right
  | case2 left filled => exact nil_right left
  | case3 old left new right replaced inserted leftOut =>
      rcases min_choice (distance left right + if old = new then 0 else 1)
        (min (distance (old :: left) right + 1) (distance left (new :: right) + 1)) with first | others
      · rw [first]
        split
        case isTrue same =>
          rw [same]
          exact .keep new replaced
        case isFalse => exact .replace old new replaced
      · rw [others]
        rcases min_choice (distance (old :: left) right + 1) (distance left (new :: right) + 1) with
          second | third
        · rw [second]
          exact .insert new inserted
        · rw [third]
          exact .leaveOut old leftOut

theorem distance_insert_le (new : Char) (left right : List Char) :
    distance left (new :: right) ≤ distance left right + 1 := by
  cases left with
  | nil => simp [distance]
  | cons old left =>
      rw [distance]
      exact (min_le_right _ _).trans (min_le_left _ _)

theorem distance_leaveOut_le (old : Char) (left right : List Char) :
    distance (old :: left) right ≤ distance left right + 1 := by
  cases right with
  | nil => cases left <;> simp [distance]
  | cons new right =>
      rw [distance]
      exact (min_le_right _ _).trans (min_le_right _ _)

theorem distance_replace_le (old new : Char) (left right : List Char) :
    distance (old :: left) (new :: right) ≤ distance left right + if old = new then 0 else 1 := by
  rw [distance]
  exact min_le_left _ _

/-- No alignment costs less than the distance. -/
theorem distance_le (alignment : Alignment left right cost) : distance left right ≤ cost := by
  induction alignment with
  | done => simp [distance]
  | @keep char left right cost _ induction =>
      have step := distance_replace_le char char left right
      rw [if_pos rfl] at step
      omega
  | @replace old new left right cost _ induction =>
      have step := distance_replace_le old new left right
      split at step <;> omega
  | @insert new left right cost _ induction =>
      have step := distance_insert_le new left right
      omega
  | @leaveOut old left right cost _ induction =>
      have step := distance_leaveOut_le old left right
      omega

/-- The distance is the least cost over all alignments. -/
theorem isLeast_distance (left right : List Char) :
    IsLeast {cost | Alignment left right cost} (distance left right) :=
  ⟨of_distance left right, fun _ alignment => alignment.distance_le⟩

theorem eq_of_free (alignment : Alignment left right cost) (free : cost = 0) : left = right := by
  induction alignment with
  | done => rfl
  | keep char _ induction => rw [induction free]
  | replace => cases free
  | insert => cases free
  | leaveOut => cases free

theorem distance_eq_zero_iff : distance left right = 0 ↔ left = right := by
  constructor
  · exact (of_distance left right).eq_of_free
  · rintro rfl
    exact Nat.le_zero.mp (refl left).distance_le

end Alignment

/-- The texts differ in one place: a character was replaced, inserted or left out there. -/
inductive Slip : List Char → List Char → Prop where
  | replaced (front back : List Char) {old new : Char} :
      old ≠ new → Slip (front ++ old :: back) (front ++ new :: back)
  | inserted (front back : List Char) (new : Char) : Slip (front ++ back) (front ++ new :: back)
  | leftOut (front back : List Char) (old : Char) : Slip (front ++ old :: back) (front ++ back)

namespace Slip

variable {left right : List Char}

theorem cons (char : Char) (slip : Slip left right) : Slip (char :: left) (char :: right) := by
  cases slip with
  | replaced front back different => exact .replaced (char :: front) back different
  | inserted front back new => exact .inserted (char :: front) back new
  | leftOut front back old => exact .leftOut (char :: front) back old

theorem symm (slip : Slip left right) : Slip right left := by
  cases slip with
  | replaced front back different => exact .replaced front back different.symm
  | inserted front back new => exact .leftOut front back new
  | leftOut front back old => exact .inserted front back old

theorem ne (slip : Slip left right) : left ≠ right := by
  cases slip with
  | replaced front back different => simpa using different
  | inserted front back new => simp
  | leftOut front back old => simp

/-- Behind a common front nothing but the one place costs anything. -/
theorem alignment (slip : Slip left right) : Alignment left right 1 := by
  have behind (front : List Char) {left right : List Char} (alignment : Alignment left right 1) :
      Alignment (front ++ left) (front ++ right) 1 := by
    induction front with
    | nil => exact alignment
    | cons char front induction => exact .keep char induction
  cases slip with
  | replaced front back _ => exact behind front (.replace _ _ (Alignment.refl back))
  | inserted front back new => exact behind front (.insert new (Alignment.refl back))
  | leftOut front back old => exact behind front (.leaveOut old (Alignment.refl back))

theorem of_alignment {cost : Nat} (alignment : Alignment left right cost) (single : cost = 1)
    (different : left ≠ right) : Slip left right := by
  induction alignment with
  | done => cases single
  | keep char _ induction => exact (induction single fun same => different (by rw [same])).cons char
  | @replace old new left right cost rest _ =>
      have same := rest.eq_of_free (by omega)
      rw [same] at different ⊢
      exact .replaced [] right fun equal => different (by rw [equal])
  | @insert new left right cost rest _ =>
      rw [rest.eq_of_free (by omega)]
      exact .inserted [] right new
  | @leaveOut old left right cost rest _ =>
      rw [rest.eq_of_free (by omega)]
      exact .leftOut [] right old

theorem iff_distance : Slip left right ↔ Alignment.distance left right = 1 := by
  constructor
  · intro slip
    have short := slip.alignment.distance_le
    have positive : Alignment.distance left right ≠ 0 :=
      fun zero => slip.ne (Alignment.distance_eq_zero_iff.mp zero)
    omega
  · intro single
    refine of_alignment (Alignment.of_distance left right) single ?_
    intro same
    rw [Alignment.distance_eq_zero_iff.mpr same] at single
    cases single

end Slip

namespace Keyword

variable {left right : List Char}

theorem countP_zip_eq_zero_iff (same : left.length = right.length) :
    (left.zip right).countP (fun (a, b) => a ≠ b) = 0 ↔ left = right := by
  induction left generalizing right with
  | nil => simp [List.length_eq_zero_iff.mp same.symm]
  | cons old left induction =>
      cases right with
      | nil => cases same
      | cons new right =>
          have rest := induction (Nat.succ.inj same)
          by_cases equal : old = new
          · simp [equal, ← rest]
          · simp [equal]

/-- In texts of one length the places are compared one by one. -/
theorem countP_zip_eq_one_iff (same : left.length = right.length) :
    (left.zip right).countP (fun (a, b) => a ≠ b) = 1 ↔
      ∃ front back old new, old ≠ new ∧ left = front ++ old :: back ∧ right = front ++ new :: back := by
  induction left generalizing right with
  | nil => simp
  | cons first left induction =>
      cases right with
      | nil => cases same
      | cons second right =>
          have rest := induction (Nat.succ.inj same)
          by_cases equal : first = second
          · subst equal
            rw [List.zip_cons_cons, List.countP_cons_of_neg (by simp), rest]
            constructor
            · rintro ⟨front, back, old, new, different, rfl, rfl⟩
              exact ⟨first :: front, back, old, new, different, rfl, rfl⟩
            · rintro ⟨front, back, old, new, different, isLeft, isRight⟩
              cases front with
              | nil =>
                  cases isLeft
                  cases isRight
                  exact absurd rfl different
              | cons char front =>
                  cases isLeft
                  cases isRight
                  exact ⟨front, back, old, new, different, rfl, rfl⟩
          · rw [List.zip_cons_cons, List.countP_cons_of_pos (by simpa using equal), Nat.add_eq_right,
              countP_zip_eq_zero_iff (Nat.succ.inj same)]
            constructor
            · rintro rfl
              exact ⟨[], left, first, second, equal, rfl, rfl⟩
            · rintro ⟨front, back, old, new, different, isLeft, isRight⟩
              cases front with
              | nil =>
                  cases isLeft
                  cases isRight
                  rfl
              | cons char front =>
                  cases isLeft
                  cases isRight
                  exact absurd rfl equal

/-- A text with one character more can lose one of its characters to become the other. -/
theorem any_eraseIdx_iff (short long : List Char) :
    (List.range long.length).any (fun place => long.eraseIdx place == short) = true ↔
      ∃ front back char, short = front ++ back ∧ long = front ++ char :: back := by
  rw [List.any_eq_true]
  constructor
  · rintro ⟨place, inside, erased⟩
    have bound := List.mem_range.mp inside
    refine ⟨long.take place, long.drop (place + 1), long.get ⟨place, bound⟩, ?_, ?_⟩
    · rw [← List.eraseIdx_eq_take_drop_succ]
      exact (beq_iff_eq.mp erased).symm
    · rw [List.get_eq_getElem, List.getElem_cons_drop, List.take_append_drop]
  · rintro ⟨front, back, char, rfl, rfl⟩
    refine ⟨front.length, by simp, ?_⟩
    simp [List.eraseIdx_append_of_length_le]

theorem differByOne_of_same_length (same : left.length = right.length) :
    differByOne left right = true ↔ Slip left right := by
  simp only [differByOne, same, Nat.le_refl, if_true, decide_eq_true_eq]
  rw [countP_zip_eq_one_iff same]
  constructor
  · rintro ⟨front, back, old, new, different, rfl, rfl⟩
    exact .replaced front back different
  · intro slip
    cases slip with
    | replaced front back different => exact ⟨front, back, _, _, different, rfl, rfl⟩
    | inserted front back new => simp at same
    | leftOut front back old => simp at same

theorem differByOne_of_shorter (shorter : left.length < right.length) :
    differByOne left right = true ↔ Slip left right := by
  have one : right.length = left.length + 1 → (differByOne left right = true ↔
      ∃ front back char, left = front ++ back ∧ right = front ++ char :: back) := by
    intro longer
    simp only [differByOne, if_pos (Nat.le_of_lt shorter), if_neg (Nat.ne_of_gt shorter), if_pos longer]
    exact any_eraseIdx_iff left right
  have more : right.length ≠ left.length + 1 → differByOne left right = false := by
    intro longer
    simp only [differByOne, if_pos (Nat.le_of_lt shorter), if_neg (Nat.ne_of_gt shorter), if_neg longer]
  constructor
  · intro differ
    have longer : right.length = left.length + 1 := by
      by_contra longer
      rw [more longer] at differ
      cases differ
    obtain ⟨front, back, char, rfl, rfl⟩ := (one longer).mp differ
    exact .inserted front back char
  · intro slip
    cases slip with
    | replaced front back different => simp at shorter
    | inserted front back new => exact (one (by simp; omega)).mpr ⟨front, back, new, rfl, rfl⟩
    | leftOut front back old =>
        simp only [List.length_append, List.length_cons] at shorter
        omega

/-- Where the lengths differ, the order of the two texts does not matter. -/
theorem differByOne_swap (shorter : left.length < right.length) :
    differByOne right left = differByOne left right := by
  simp only [differByOne, if_pos (Nat.le_of_lt shorter), if_neg (Nat.not_le_of_lt shorter)]

theorem differByOne_iff_slip (left right : List Char) : differByOne left right = true ↔ Slip left right := by
  rcases Nat.lt_trichotomy left.length right.length with shorter | same | longer
  · exact differByOne_of_shorter shorter
  · exact differByOne_of_same_length same
  · rw [differByOne_swap longer, differByOne_of_shorter longer]
    exact ⟨Slip.symm, Slip.symm⟩

/-- The characters are one letter, in upper or lower case, or one and the same character. -/
def CaseTwins (left right : Char) : Prop :=
  left = right ∨ (left.isUpper = true ∧ right.toNat = left.toNat + 32) ∨
    (right.isUpper = true ∧ left.toNat = right.toNat + 32)

theorem isUpper_iff (char : Char) : char.isUpper = true ↔ 65 ≤ char.toNat ∧ char.toNat ≤ 90 := by
  simp [Char.isUpper, UInt32.le_iff_toNat_le]

theorem toNat_toLower (char : Char) :
    char.toLower.toNat = if char.isUpper then char.toNat + 32 else char.toNat := by
  unfold Char.toLower
  split
  case isTrue inside =>
    have upper : char.isUpper = true := by simpa [Char.isUpper] using inside
    have bounded := (isUpper_iff char).mp upper
    rw [if_pos upper, ← Char.toNat_val, UInt32.toNat_add, Char.toNat_val]
    exact Nat.mod_eq_of_lt (by simp; omega)
  case isFalse outside =>
    have other : char.isUpper = false := by simpa [Char.isUpper] using outside
    simp [other]

theorem toLower_eq_iff (left right : Char) : left.toLower = right.toLower ↔ CaseTwins left right := by
  rw [CaseTwins, ← Char.toNat_inj, ← Char.toNat_inj, toNat_toLower, toNat_toLower]
  simp only [isUpper_iff]
  split <;> split <;> omega

/-- The words are equal up to the case of ASCII letters. -/
def SameLetters (left right : String) : Prop :=
  List.Forall₂ CaseTwins left.toList right.toList

theorem sameLetters_iff (left right : String) : sameLetters left right = true ↔ SameLetters left right := by
  rw [sameLetters, beq_iff_eq, SameLetters, ← List.forall₂_eq_eq_eq, List.forall₂_map_left_iff,
    List.forall₂_map_right_iff]
  simp only [toLower_eq_iff]

/-- A word keyword: at least two letters and nothing else. -/
structure IsWord (keyword : String) : Prop where
  long : 1 < keyword.length
  letters : ∀ char ∈ keyword.toList, char.isAlpha = true

/-- The keywords in the order of the tables. -/
def table : List String := nullaryWords ++ unaryWords

theorem isWord_iff (keyword : String) :
    (1 < keyword.length && keyword.toList.all Char.isAlpha) = true ↔ IsWord keyword := by
  rw [Bool.and_eq_true, decide_eq_true_eq, List.all_eq_true]
  exact ⟨fun ⟨long, letters⟩ => ⟨long, letters⟩, fun word => ⟨word.long, word.letters⟩⟩

theorem mem_words_iff (keyword : String) : keyword ∈ words ↔ keyword ∈ table ∧ IsWord keyword := by
  rw [words, List.mem_filter, isWord_iff]
  rfl

/-- No two word keywords have the same letters. -/
theorem nodup_letters : (words.map fun keyword => keyword.toList.map Char.toLower).Nodup := by
  decide

theorem eq_of_sameLetters {unknown first second : String} (among : first ∈ words) (also : second ∈ words)
    (isFirst : sameLetters unknown first = true) (isSecond : sameLetters unknown second = true) :
    first = second := by
  rw [sameLetters, beq_iff_eq] at isFirst isSecond
  exact List.inj_on_of_nodup_map nodup_letters among also (isFirst.symm.trans isSecond)

/-- The keyword is the first in the tables among the word keywords at distance 1. -/
def FirstNear (unknown keyword : String) : Prop :=
  ∃ before after, table = before ++ keyword :: after ∧ IsWord keyword ∧
    Alignment.distance unknown.toList keyword.toList = 1 ∧
    ∀ earlier ∈ before, IsWord earlier → Alignment.distance unknown.toList earlier.toList ≠ 1

theorem differByOne_iff_distance (left right : List Char) :
    differByOne left right = true ↔ Alignment.distance left right = 1 :=
  (differByOne_iff_slip left right).trans Slip.iff_distance

theorem find?_words_eq_some_iff (unknown keyword : String) :
    (words.find? fun keyword => differByOne unknown.toList keyword.toList) = some keyword ↔
      FirstNear unknown keyword := by
  rw [words, List.find?_filter, List.find?_eq_some_iff_append]
  simp only [isWord_iff, differByOne_iff_distance, decide_eq_true_eq, Bool.not_eq_true', decide_eq_false_iff_not,
    not_and]
  constructor
  · rintro ⟨⟨word, near⟩, before, after, split, others⟩
    exact ⟨before, after, split, word, near, others⟩
  · rintro ⟨before, after, split, word, near, others⟩
    exact ⟨⟨word, near⟩, before, after, split, others⟩

/-- The suggestion is the keyword with the same letters, and only without one the first at distance 1. -/
structure Nearest (unknown : String) : Prop where
  same : ∀ keyword ∈ table, IsWord keyword → SameLetters unknown keyword → suggest unknown = some keyword
  near : (∀ keyword ∈ table, IsWord keyword → ¬ SameLetters unknown keyword) →
    ∀ keyword, suggest unknown = some keyword ↔ FirstNear unknown keyword
  none : suggest unknown = none ↔ ∀ keyword ∈ table, IsWord keyword →
    ¬ SameLetters unknown keyword ∧ Alignment.distance unknown.toList keyword.toList ≠ 1

theorem find?_sameLetters_eq_none_iff (unknown : String) :
    words.find? (sameLetters unknown) = none ↔
      ∀ keyword ∈ table, IsWord keyword → ¬ SameLetters unknown keyword := by
  simp only [List.find?_eq_none, mem_words_iff, sameLetters_iff, and_imp]

theorem nearest (unknown : String) : Nearest unknown where
  same keyword among word same := by
    have inWords := (mem_words_iff keyword).mpr ⟨among, word⟩
    have passes := (sameLetters_iff unknown keyword).mpr same
    rw [suggest]
    cases found : words.find? (sameLetters unknown) with
    | none => exact absurd passes (List.find?_eq_none.mp found keyword inWords)
    | some other =>
        have first := List.find?_some found
        rw [eq_of_sameLetters (List.mem_of_find?_eq_some found) inWords first passes]
  near without keyword := by
    rw [suggest, (find?_sameLetters_eq_none_iff unknown).mpr without]
    exact find?_words_eq_some_iff unknown keyword
  none := by
    rw [suggest]
    cases found : words.find? (sameLetters unknown) with
    | none =>
        have without := (find?_sameLetters_eq_none_iff unknown).mp found
        simp only [List.find?_eq_none, mem_words_iff, differByOne_iff_distance, and_imp]
        exact forall₃_congr fun keyword among word => (and_iff_right (without keyword among word)).symm
    | some other =>
        have ⟨among, word⟩ := (mem_words_iff other).mp (List.mem_of_find?_eq_some found)
        have same := (sameLetters_iff unknown other).mp (List.find?_some found)
        constructor
        · exact fun made => by cases made
        · exact fun far => absurd same (far other among word).1

theorem suggestion_is_nearest_keyword :
    (∀ left right, IsLeast {cost | Alignment left right cost} (Alignment.distance left right)) ∧
      (∀ left right, differByOne left right = true ↔ Alignment.distance left right = 1) ∧
      (∀ left right, differByOne left right = differByOne right left) ∧
      (∀ text, differByOne text text = false) ∧ ∀ unknown, Nearest unknown := by
  refine ⟨Alignment.isLeast_distance, differByOne_iff_distance, ?_, ?_, nearest⟩
  · intro left right
    rw [Bool.eq_iff_iff, differByOne_iff_slip, differByOne_iff_slip]
    exact ⟨Slip.symm, Slip.symm⟩
  · intro text
    rw [← Bool.not_eq_true, differByOne_iff_slip]
    exact fun slip => slip.ne rfl

/-- The keyword with the same letters is preferred to a nearer place in the tables. -/
example : table.idxOf "not" < table.idxOf "rot" ∧ differByOne "rot".toList "not".toList = true ∧
    suggest "rot" = some "rot" ∧ suggest "ROT" = some "rot" ∧ suggest "ot" = some "not" := by
  decide

end Keyword

end RingTape
