import Constituency.Cells.Table

/-!
Tables slot by slot and interval by interval. Two keys of a table never share a slot, so a change at
one interval shows in the cell of that interval and in no other cell.
-/

namespace Constituency.Table

variable {α : Type} {table : Table α} {start stop start' stop' : Nat}

def Shaped (table : Table α) : Prop :=
  table.slots.size = (table.words + 1) * (table.words + 1) * table.labels

def Covers (table : Table α) (start stop : Nat) : Prop :=
  start ≤ table.words ∧ stop ≤ table.words

theorem shaped_create (words labels : Nat) (blank : α) : (create words labels blank).Shaped := by
  simp [Shaped, create]

theorem Shaped.modify (shaped : table.Shaped) (start stop : Nat) (label : Label)
    (change : α → α) : (table.modify start stop label change).Shaped := by
  simpa [Shaped, Table.modify] using shaped

theorem set_eq_modify (table : Table α) (start stop : Nat) (label : Label) (value : α) :
    table.set start stop label value = table.modify start stop label fun _ => value :=
  rfl

private theorem lt_of_mul_add_le {count quotient limit rest : Nat} (below : quotient < limit)
    (small : rest < count) : quotient * count + rest < limit * count := by
  calc quotient * count + rest < quotient * count + count := by omega
    _ = (quotient + 1) * count := by rw [Nat.add_mul, Nat.one_mul]
    _ ≤ limit * count := Nat.mul_le_mul_right _ below

private theorem row_lt (covered : table.Covers start stop) :
    start * (table.words + 1) + stop < (table.words + 1) * (table.words + 1) :=
  lt_of_mul_add_le (Nat.lt_succ_of_le covered.1) (Nat.lt_succ_of_le covered.2)

theorem offset_add_lt (shaped : table.Shaped) (covered : table.Covers start stop) {slot : Nat}
    (inside : slot < table.labels) : table.offset start stop + slot < table.slots.size := by
  rw [shaped]
  exact lt_of_mul_add_le (row_lt covered) inside

theorem offset_add_le (shaped : table.Shaped) (covered : table.Covers start stop) :
    table.offset start stop + table.labels ≤ table.slots.size := by
  rw [shaped, offset, ← Nat.succ_mul]
  exact Nat.mul_le_mul_right _ (row_lt covered)

private theorem mul_add_inj {count q r q' r' : Nat} (small : r < count) (small' : r' < count)
    (same : q * count + r = q' * count + r') : q = q' ∧ r = r' := by
  have quotient : q = q' := by
    have left : (q * count + r) / count = q := by
      rw [Nat.mul_comm, Nat.mul_add_div (by omega), Nat.div_eq_of_lt small, Nat.add_zero]
    have right : (q' * count + r') / count = q' := by
      rw [Nat.mul_comm, Nat.mul_add_div (by omega), Nat.div_eq_of_lt small', Nat.add_zero]
    rw [← left, same, right]
  subst quotient
  exact ⟨rfl, Nat.add_left_cancel same⟩

theorem offset_add_inj (covered : table.Covers start stop)
    (covered' : table.Covers start' stop') {slot slot' : Nat} (inside : slot < table.labels)
    (inside' : slot' < table.labels)
    (same : table.offset start stop + slot = table.offset start' stop' + slot') :
    start = start' ∧ stop = stop' ∧ slot = slot' := by
  obtain ⟨row, slots⟩ := mul_add_inj inside inside' same
  obtain ⟨starts, stops⟩ := mul_add_inj (Nat.lt_succ_of_le covered.2)
    (Nat.lt_succ_of_le covered'.2) row
  exact ⟨starts, stops, slots⟩

theorem getElem?_cell (shaped : table.Shaped) (covered : table.Covers start stop) (slot : Nat) :
    (table.cell start stop)[slot]? =
      if slot < table.labels then table.slots[table.offset start stop + slot]? else none := by
  have room := offset_add_le shaped covered
  rw [cell, Array.getElem?_toList, Array.getElem?_extract]
  congr 1
  rw [eq_iff_iff]
  omega

theorem length_cell (shaped : table.Shaped) (covered : table.Covers start stop) :
    (table.cell start stop).length = table.labels := by
  have behind (slot : Nat) :
      (table.cell start stop).length ≤ slot ↔ table.labels ≤ slot := by
    rw [← List.getElem?_eq_none_iff, getElem?_cell shaped covered]
    by_cases inside : slot < table.labels
    · simp [inside, offset_add_lt shaped covered inside]
    · simp [inside, Nat.not_lt.mp inside]
  exact Nat.le_antisymm ((behind _).mpr (Nat.le_refl _)) ((behind _).mp (Nat.le_refl _))

theorem get_eq_getD_cell (shaped : table.Shaped) (covered : table.Covers start stop)
    {label : Label} (inside : label.toNat < table.labels) :
    table.get start stop label = (table.cell start stop).getD label.toNat table.blank := by
  rw [List.getD_eq_getElem?_getD, getElem?_cell shaped covered, if_pos inside, get,
    Array.getD_eq_getD_getElem?, place]

theorem cell_create (words labels : Nat) (blank : α) (within : start ≤ words)
    (within' : stop ≤ words) :
    (create words labels blank).cell start stop = List.replicate labels blank := by
  have covered : (create words labels blank).Covers start stop := ⟨within, within'⟩
  have shaped := shaped_create words labels blank
  apply List.ext_getElem?
  intro slot
  rw [getElem?_cell shaped covered, List.getElem?_replicate]
  by_cases inside : slot < labels
  · have room := offset_add_lt shaped covered inside
    rw [if_pos inside]
    exact (if_pos inside).trans
      (Array.getElem?_replicate.trans (if_pos (by simpa [create] using room)))
  · exact (if_neg inside).trans (if_neg inside).symm

theorem cell_modify_self (shaped : table.Shaped) (covered : table.Covers start stop)
    (label : Label) (change : α → α) :
    (table.modify start stop label change).cell start stop =
      (table.cell start stop).modify label.toNat change := by
  apply List.ext_getElem?
  intro slot
  rw [List.getElem?_modify, getElem?_cell shaped covered,
    getElem?_cell (shaped.modify start stop label change) covered]
  by_cases within : slot < table.labels
  · by_cases same : label.toNat = slot
    · simp [modify, place, offset, Array.getElem?_modify, within, same]
    · simp [modify, place, offset, Array.getElem?_modify, within, same]
  · simp [modify, within]

theorem cell_modify_of_ne (shaped : table.Shaped) (covered : table.Covers start stop)
    (covered' : table.Covers start' stop') (apart : (start, stop) ≠ (start', stop'))
    {label : Label} (inside : label.toNat < table.labels) (change : α → α) :
    (table.modify start stop label change).cell start' stop' = table.cell start' stop' := by
  apply List.ext_getElem?
  intro slot
  rw [getElem?_cell shaped covered',
    getElem?_cell (shaped.modify start stop label change) covered']
  by_cases within : slot < table.labels
  · have other : table.place start stop label ≠ table.offset start' stop' + slot := by
      intro same
      obtain ⟨rfl, rfl, _⟩ := offset_add_inj covered covered' inside within same
      exact apart rfl
    have place : (table.modify start stop label change).slots[
        (table.modify start stop label change).offset start' stop' + slot]? =
        table.slots[table.offset start' stop' + slot]? := by
      change (table.slots.modify (table.place start stop label) change)[
        table.offset start' stop' + slot]? = _
      rw [Array.getElem?_modify, if_neg other]
    rw [if_pos within, place]
    exact if_pos within
  · exact (if_neg within).trans (if_neg within).symm

private theorem getElem?_foldl_set (offset : Nat) (values : List α) (first : Nat)
    (slots : Array α) (place : Nat) :
    ((values.zipIdx first).foldl
      (fun slots (value, label) => slots.setIfInBounds (offset + label) value) slots)[place]? =
      if offset + first ≤ place ∧ place < offset + first + values.length ∧ place < slots.size then
        values[place - (offset + first)]?
      else slots[place]? := by
  induction values generalizing first slots with
  | nil =>
    refine (if_neg ?_).symm
    rw [List.length_nil]
    omega
  | cons value values ih =>
    rw [List.zipIdx_cons, List.foldl_cons, ih, Array.size_setIfInBounds,
      Array.getElem?_setIfInBounds, List.length_cons]
    by_cases here : offset + first = place
    · subst here
      rw [if_neg (by omega), if_pos rfl, Nat.sub_self]
      by_cases inside : offset + first < slots.size
      · rw [if_pos inside, if_pos (by omega)]
        rfl
      · rw [if_neg inside, if_neg (by omega), Array.getElem?_eq_none (Nat.not_lt.mp inside)]
    · rw [if_neg here]
      by_cases later : offset + (first + 1) ≤ place
      · have shift : place - (offset + first) = place - (offset + (first + 1)) + 1 := by omega
        rw [shift, List.getElem?_cons_succ]
        congr 1
        rw [eq_iff_iff]
        omega
      · rw [if_neg (by omega), if_neg (by omega)]

theorem Shaped.setCell (shaped : table.Shaped) (start stop : Nat) (values : List α) :
    (table.setCell start stop values).Shaped := by
  have sizes (values : List (α × Nat)) (slots : Array α) :
      (values.foldl (fun slots (value, label) =>
        slots.setIfInBounds (table.offset start stop + label) value) slots).size = slots.size := by
    induction values generalizing slots with
    | nil => rfl
    | cons value values ih => rw [List.foldl_cons, ih, Array.size_setIfInBounds]
  exact (sizes _ _).trans shaped

theorem cell_setCell_self (shaped : table.Shaped) (covered : table.Covers start stop)
    {values : List α} (length : values.length = table.labels) :
    (table.setCell start stop values).cell start stop = values := by
  apply List.ext_getElem?
  intro slot
  rw [getElem?_cell (shaped.setCell start stop values) covered]
  by_cases within : slot < table.labels
  · have room := offset_add_lt shaped covered within
    refine (if_pos within).trans ((getElem?_foldl_set _ values 0 _ _).trans ?_)
    rw [if_pos]
    · congr 1
      exact Nat.add_sub_cancel_left _ _
    · exact ⟨Nat.le_add_right _ _, by
        rw [length]
        exact Nat.add_lt_add_left within _, room⟩
  · refine (if_neg within).trans (List.getElem?_eq_none ?_).symm
    omega

theorem cell_setCell_of_ne (shaped : table.Shaped) (covered : table.Covers start stop)
    (covered' : table.Covers start' stop') (apart : (start, stop) ≠ (start', stop'))
    {values : List α} (length : values.length = table.labels) :
    (table.setCell start stop values).cell start' stop' = table.cell start' stop' := by
  apply List.ext_getElem?
  intro slot
  rw [getElem?_cell shaped covered', getElem?_cell (shaped.setCell start stop values) covered']
  by_cases within : slot < table.labels
  · refine (if_pos within).trans ((getElem?_foldl_set _ values 0 _ _).trans ?_)
    rw [if_pos within, if_neg]
    · rfl
    · intro found
      obtain ⟨low, high, _⟩ := found
      change table.offset start stop + 0 ≤ table.offset start' stop' + slot at low
      change table.offset start' stop' + slot < table.offset start stop + 0 + values.length at high
      obtain ⟨rfl, rfl, _⟩ := offset_add_inj covered covered'
        (show table.offset start' stop' + slot - table.offset start stop < table.labels by omega)
        within (by omega)
      exact apart rfl
  · exact (if_neg within).trans (if_neg within).symm

structure Sized (table : Table α) (words labels : Nat) (blank : α) : Prop where
  shaped : table.Shaped
  words_eq : table.words = words
  labels_eq : table.labels = labels
  blank_eq : table.blank = blank

theorem sized_create (words labels : Nat) (blank : α) :
    (create words labels blank).Sized words labels blank :=
  ⟨shaped_create words labels blank, rfl, rfl, rfl⟩

namespace Sized

variable {words labels : Nat} {blank : α}

theorem covers (sized : table.Sized words labels blank)
    (within : start ≤ words ∧ stop ≤ words) : table.Covers start stop := by
  rw [Covers, sized.words_eq]
  exact within

theorem modify (sized : table.Sized words labels blank) (start stop : Nat) (label : Label)
    (change : α → α) : (table.modify start stop label change).Sized words labels blank :=
  ⟨sized.shaped.modify start stop label change, sized.words_eq, sized.labels_eq, sized.blank_eq⟩

theorem get_modify (sized : table.Sized words labels blank)
    (within : start ≤ words ∧ stop ≤ words) (within' : start' ≤ words ∧ stop' ≤ words)
    {label label' : Label} (inside : label.toNat < labels) (inside' : label'.toNat < labels)
    (change : α → α) :
    (table.modify start stop label change).get start' stop' label' =
      if (start, stop) = (start', stop') ∧ label = label' then
        change (table.get start' stop' label')
      else table.get start' stop' label' := by
  rw [← sized.labels_eq] at inside inside'
  have room : table.place start' stop' label' < table.slots.size :=
    offset_add_lt sized.shaped (sized.covers within') inside'
  have slot : (table.modify start stop label change).get start' stop' label' =
      ((table.slots.modify (table.place start stop label) change)[
        table.place start' stop' label']?).getD table.blank :=
    Array.getD_eq_getD_getElem?
  have old : table.get start' stop' label' =
      (table.slots[table.place start' stop' label']?).getD table.blank :=
    Array.getD_eq_getD_getElem?
  have present : table.slots[table.place start' stop' label']? =
      some (table.get start' stop' label') := by
    rw [old, Array.getElem?_eq_getElem room, Option.getD_some]
  rw [slot, Array.getElem?_modify, present]
  by_cases same : (start, stop) = (start', stop') ∧ label = label'
  · obtain ⟨interval, rfl⟩ := same
    obtain ⟨rfl, rfl⟩ := Prod.mk.inj interval
    rw [if_pos rfl, if_pos ⟨rfl, rfl⟩]
    rfl
  · have apart : table.place start stop label ≠ table.place start' stop' label' := by
      intro equal
      obtain ⟨rfl, rfl, labels⟩ :=
        offset_add_inj (sized.covers within) (sized.covers within') inside inside' equal
      exact same ⟨rfl, UInt16.toNat_inj.mp labels⟩
    rw [if_neg apart, if_neg same]
    rfl

end Sized

end Constituency.Table
