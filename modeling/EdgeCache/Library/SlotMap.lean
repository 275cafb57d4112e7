import Mathlib.Data.List.Sigma
import Mathlib.Data.List.ReduceOption

/-!
Maps kept in insertion order with cursors that survive mutation, as ECMAScript
specifies `Map` and `Set`. A map is a list of slots; overwriting keeps the slot,
deleting a key empties its slot, and a new key takes a new slot at the end. A
cursor is an index into the slots, so it stays meaningful while the map changes.
The `for ... of` loop over a map that its own body mutates is `visit`; when the
body leaves the later slots alone, `visit_rule` proves things about it entry by
entry.
-/
namespace SlotMap

/-- Slots in insertion order; `none` is the slot of a deleted key. -/
abbrev Slots (κ ν : Type*) := List (Option (Σ _ : κ, ν))

end SlotMap

structure SlotMap (κ ν : Type*) where
  slots : SlotMap.Slots κ ν
  nodupKeys : slots.reduceOption.NodupKeys

namespace SlotMap

variable {κ ν : Type*}

def entries (m : SlotMap κ ν) : List (Σ _ : κ, ν) := m.slots.reduceOption

def keys (m : SlotMap κ ν) : List κ := m.entries.keys

def size (m : SlotMap κ ν) : ℕ := m.entries.length

def empty : SlotMap κ ν := ⟨[], List.nodupKeys_nil⟩

theorem keys_nodup (m : SlotMap κ ν) : m.keys.Nodup := m.nodupKeys

theorem length_keys (m : SlotMap κ ν) : m.keys.length = m.size := by
  simp [keys, size, List.keys]

@[simp] theorem keys_empty : (empty : SlotMap κ ν).keys = [] := rfl

@[simp] theorem size_empty : (empty : SlotMap κ ν).size = 0 := rfl

variable [DecidableEq κ]

def get (m : SlotMap κ ν) (k : κ) : Option ν := m.entries.dlookup k

def has (m : SlotMap κ ν) (k : κ) : Bool := (m.get k).isSome

theorem mem_get_iff (m : SlotMap κ ν) (k : κ) (v : ν) :
    m.get k = some v ↔ ⟨k, v⟩ ∈ m.entries :=
  List.mem_dlookup_iff m.nodupKeys

theorem get_eq_none_iff (m : SlotMap κ ν) (k : κ) : m.get k = none ↔ k ∉ m.keys :=
  List.dlookup_eq_none

theorem mem_keys_iff (m : SlotMap κ ν) (k : κ) : k ∈ m.keys ↔ ∃ v, m.get k = some v := by
  rw [← Option.isSome_iff_exists]
  exact List.dlookup_isSome.symm

@[simp] theorem get_empty (k : κ) : (empty : SlotMap κ ν).get k = none := rfl

theorem ext_get (m : SlotMap κ ν) (k : κ) (o : Option ν)
    (h : ∀ v, ⟨k, v⟩ ∈ m.entries ↔ o = some v) : m.get k = o :=
  Option.ext fun v => (mem_get_iff m k v).trans (h v)

/-! ### Overwriting and inserting -/

def overwrite (k : κ) (v : ν) (e : Σ _ : κ, ν) : Σ _ : κ, ν :=
  if e.1 = k then ⟨k, v⟩ else e

theorem overwrite_fst (k : κ) (v : ν) (e : Σ _ : κ, ν) : (overwrite k v e).1 = e.1 := by
  unfold overwrite
  split
  · simp_all
  · rfl

theorem keys_map_overwrite (k : κ) (v : ν) (l : List (Σ _ : κ, ν)) :
    (l.map (overwrite k v)).keys = l.keys := by
  simp only [List.keys, List.map_map]
  exact List.map_congr_left fun e _ => overwrite_fst k v e

theorem nodupKeys_overwrite (m : SlotMap κ ν) (k : κ) (v : ν) :
    (m.slots.map (Option.map (overwrite k v))).reduceOption.NodupKeys := by
  rw [List.reduceOption_map]
  unfold List.NodupKeys
  rw [keys_map_overwrite]
  exact m.nodupKeys

omit [DecidableEq κ] in
theorem nodupKeys_append (m : SlotMap κ ν) (k : κ) (v : ν) (h : k ∉ m.keys) :
    (m.slots ++ [some (⟨k, v⟩ : Σ _ : κ, ν)]).reduceOption.NodupKeys := by
  unfold List.NodupKeys
  simp only [List.keys, List.reduceOption_append, List.reduceOption_singleton,
    Option.toList_some, List.map_append, List.map_cons, List.map_nil]
  exact List.Nodup.append m.nodupKeys (List.nodup_singleton k)
    (List.disjoint_singleton.mpr h)

/-- A present key keeps its slot; an absent one is appended. -/
def set (m : SlotMap κ ν) (k : κ) (v : ν) : SlotMap κ ν :=
  if h : k ∈ m.keys then ⟨m.slots.map (Option.map (overwrite k v)), nodupKeys_overwrite m k v⟩
  else ⟨m.slots ++ [some ⟨k, v⟩], nodupKeys_append m k v h⟩

theorem entries_set_present (m : SlotMap κ ν) (k : κ) (v : ν) (h : k ∈ m.keys) :
    (m.set k v).entries = m.entries.map (overwrite k v) := by
  simp only [set, h, ↓reduceDIte, entries, List.reduceOption_map]

theorem entries_set_absent (m : SlotMap κ ν) (k : κ) (v : ν) (h : k ∉ m.keys) :
    (m.set k v).entries = m.entries ++ [⟨k, v⟩] := by
  simp only [set, h, ↓reduceDIte, entries, List.reduceOption_append,
    List.reduceOption_singleton, Option.toList_some]

theorem keys_set_present (m : SlotMap κ ν) (k : κ) (v : ν) (h : k ∈ m.keys) :
    (m.set k v).keys = m.keys := by
  rw [keys, entries_set_present m k v h, keys_map_overwrite, keys]

theorem keys_set_absent (m : SlotMap κ ν) (k : κ) (v : ν) (h : k ∉ m.keys) :
    (m.set k v).keys = m.keys ++ [k] := by
  rw [keys, entries_set_absent m k v h, List.keys, List.map_append]
  rfl

theorem mem_map_overwrite (k k' : κ) (v v' : ν) (l : List (Σ _ : κ, ν)) :
    ⟨k', v'⟩ ∈ l.map (overwrite k v) ↔
      (k' = k ∧ v' = v ∧ k ∈ l.keys) ∨ (k' ≠ k ∧ ⟨k', v'⟩ ∈ l) := by
  rw [List.mem_map]
  constructor
  · intro hex
    obtain ⟨⟨a, b⟩, hmem, heq⟩ := hex
    by_cases ha : a = k
    · subst ha
      simp only [overwrite, ↓reduceIte, Sigma.mk.injEq, heq_eq_eq] at heq
      obtain ⟨rfl, rfl⟩ := heq
      exact Or.inl ⟨rfl, rfl, List.mem_keys_of_mem hmem⟩
    · simp only [overwrite, ha, ↓reduceIte, Sigma.mk.injEq, heq_eq_eq] at heq
      obtain ⟨rfl, rfl⟩ := heq
      exact Or.inr ⟨ha, hmem⟩
  · intro hor
    rcases hor with ⟨rfl, rfl, hk⟩ | ⟨hne, hmem⟩
    · obtain ⟨b, hb⟩ := List.exists_of_mem_keys hk
      exact ⟨_, hb, by simp [overwrite]⟩
    · exact ⟨_, hmem, by simp [overwrite, hne]⟩

theorem get_set (m : SlotMap κ ν) (k k' : κ) (v : ν) :
    (m.set k v).get k' = if k' = k then some v else m.get k' := by
  refine ext_get _ _ _ fun w => ?_
  by_cases h : k ∈ m.keys
  · rw [entries_set_present m k v h, mem_map_overwrite]
    by_cases hk : k' = k
    · have hkeys : k ∈ m.entries.keys := h
      simp [hk, hkeys, eq_comm]
    · simp [hk, mem_get_iff]
  · rw [entries_set_absent m k v h, List.mem_append, List.mem_singleton]
    by_cases hk : k' = k
    · subst hk
      have hout : (⟨k', w⟩ : Σ _ : κ, ν) ∉ m.entries := fun hmem => h (List.mem_keys_of_mem hmem)
      simp [hout, eq_comm]
    · simp [hk, mem_get_iff]

/-! ### Deleting and clearing -/

theorem reduceOption_map_filter {α : Type*} (p : α → Bool) (l : List (Option α)) :
    (l.map (Option.filter p)).reduceOption = l.reduceOption.filter p := by
  induction l with
  | nil => rfl
  | cons o rest ih =>
    cases o with
    | none => simpa using ih
    | some a =>
      by_cases ha : p a
      · simp [Option.filter, ha, List.reduceOption_cons_of_some, ih]
      · simp [Option.filter, ha, List.reduceOption_cons_of_some, ih]

omit [DecidableEq κ] in
theorem nodupKeys_filter (m : SlotMap κ ν) (p : (Σ _ : κ, ν) → Bool) :
    (m.slots.map (Option.filter p)).reduceOption.NodupKeys := by
  rw [reduceOption_map_filter]
  exact m.nodupKeys.sublist List.filter_sublist

/-- Deleting empties the slot of the key and moves no other slot. -/
def delete (m : SlotMap κ ν) (k : κ) : SlotMap κ ν :=
  ⟨m.slots.map (Option.filter fun e => e.1 ≠ k), nodupKeys_filter m _⟩

def clear (m : SlotMap κ ν) : SlotMap κ ν :=
  ⟨m.slots.map (Option.filter fun _ => false), nodupKeys_filter m _⟩

theorem entries_delete (m : SlotMap κ ν) (k : κ) :
    (m.delete k).entries = m.entries.filter fun e => e.1 ≠ k :=
  reduceOption_map_filter _ _

theorem get_delete (m : SlotMap κ ν) (k k' : κ) :
    (m.delete k).get k' = if k' = k then none else m.get k' := by
  refine ext_get _ _ _ fun w => ?_
  rw [entries_delete, List.mem_filter]
  by_cases hk : k' = k <;> simp [hk, mem_get_iff]

omit [DecidableEq κ] in
theorem entries_clear (m : SlotMap κ ν) : m.clear.entries = [] := by
  simp [clear, entries, reduceOption_map_filter]

@[simp] theorem get_clear (m : SlotMap κ ν) (k : κ) : m.clear.get k = none :=
  ext_get _ _ _ fun w => by simp [entries_clear]

omit [DecidableEq κ] in
@[simp] theorem keys_clear (m : SlotMap κ ν) : m.clear.keys = [] := by
  simp [keys, entries_clear]

/-! ### Cursors and loops -/

section Loops

variable {σ α : Type*}

/-- The first entry that passes `p`, with the cursor behind its slot; the slots listed
start at the cursor given. -/
def seekFrom (p : α → Bool) : List (Option α) → ℕ → Option (α × ℕ)
  | [], _ => none
  | some a :: rest, i => if p a then some (a, i + 1) else seekFrom p rest (i + 1)
  | none :: rest, i => seekFrom p rest (i + 1)

/-- Where an iterator at the cursor stops next, skipping the entries that fail `p`. -/
def seek (p : α → Bool) (slots : List (Option α)) (cursor : ℕ) : Option (α × ℕ) :=
  seekFrom p (slots.drop cursor) cursor

/-- One turn of a loop over live slots: the slot is read in the current state. -/
def visitSlot (slotsOf : σ → List (Option α)) (body : ℕ → σ → α → σ) (s : σ) (i : ℕ) : σ :=
  match (slotsOf s)[i]? with
  | some (some a) => body i s a
  | _ => s

/-- A loop over live slots whose body appends none. -/
def visit (slotsOf : σ → List (Option α)) (body : ℕ → σ → α → σ) (s : σ) : σ :=
  (List.range (slotsOf s).length).foldl (visitSlot slotsOf body) s

def KeepsLaterSlots (slotsOf : σ → List (Option α)) (body : ℕ → σ → α → σ) : Prop :=
  ∀ s i a, (slotsOf s)[i]? = some (some a) →
    ∀ j, i < j → (slotsOf (body i s a))[j]? = (slotsOf s)[j]?

/-- Loop rule. What holds before the loop and is kept by each turn, given the entries
visited so far, holds at the end of all entries the loop found at its start. -/
theorem visit_rule (slotsOf : σ → List (Option α)) (body : ℕ → σ → α → σ)
    (hkeep : KeepsLaterSlots slotsOf body) (s : σ) {P : List α → σ → Prop} (hstart : P [] s)
    (hturn : ∀ i s' a, P ((slotsOf s).take i).reduceOption s' →
      (slotsOf s)[i]? = some (some a) → (slotsOf s')[i]? = some (some a) →
      P (((slotsOf s).take i).reduceOption ++ [a]) (body i s' a)) :
    P (slotsOf s).reduceOption (visit slotsOf body s) := by
  have hloop : ∀ n ≤ (slotsOf s).length,
      P ((slotsOf s).take n).reduceOption ((List.range n).foldl (visitSlot slotsOf body) s) ∧
        ∀ j, n ≤ j →
          (slotsOf ((List.range n).foldl (visitSlot slotsOf body) s))[j]? = (slotsOf s)[j]? := by
    intro n hn
    induction n with
    | zero => exact ⟨hstart, fun _ _ => rfl⟩
    | succ n ih =>
      obtain ⟨hP, hlater⟩ := ih (by omega)
      rw [List.range_succ, List.foldl_append, List.foldl_cons, List.foldl_nil,
        List.take_add_one, List.reduceOption_append]
      generalize (List.range n).foldl (visitSlot slotsOf body) s = s' at hP hlater ⊢
      have hslot := hlater n le_rfl
      rw [visitSlot, hslot]
      obtain ⟨o, ho⟩ : ∃ o, (slotsOf s)[n]? = some o := ⟨_, List.getElem?_eq_getElem hn⟩
      rw [ho] at hslot ⊢
      cases o with
      | none =>
        refine ⟨by simpa using hP, fun j hj => hlater j (by omega)⟩
      | some a =>
        refine ⟨hturn n s' a hP ho hslot, fun j hj => ?_⟩
        rw [hkeep s' n a hslot j hj, hlater j (by omega)]
  have hall := (hloop _ le_rfl).1
  rwa [List.take_length] at hall

theorem visit_invariant {slotsOf : σ → List (Option α)} {body : ℕ → σ → α → σ} {I : σ → Prop}
    (hbody : ∀ i s a, I s → I (body i s a)) {s : σ} (hs : I s) : I (visit slotsOf body s) := by
  refine List.foldlRecOn (motive := I) _ _ hs fun s hs i _ => ?_
  unfold visitSlot
  split
  · exact hbody i s _ hs
  · exact hs

/-! An iterator that stops at each entry passing `p` makes the same turns. -/

def visitFrom (slotsOf : σ → List (Option α)) (body : ℕ → σ → α → σ) (cursor : ℕ) (s : σ) : σ :=
  (List.range' cursor ((slotsOf s).length - cursor)).foldl (visitSlot slotsOf body) s

theorem visit_eq_visitFrom (slotsOf : σ → List (Option α)) (body : ℕ → σ → α → σ) (s : σ) :
    visit slotsOf body s = visitFrom slotsOf body 0 s := by
  rw [visit, visitFrom, List.range_eq_range', Nat.sub_zero]

private theorem seek_step (p : α → Bool) (slots : List (Option α)) {cursor : ℕ} {o : Option α}
    (ho : slots[cursor]? = some o) :
    seek p slots cursor = match o with
      | some a => if p a then some (a, cursor + 1) else seek p slots (cursor + 1)
      | none => seek p slots (cursor + 1) := by
  obtain ⟨hlt, hget⟩ := List.getElem?_eq_some_iff.mp ho
  rw [seek, List.drop_eq_getElem_cons hlt, hget]
  cases o <;> rfl

theorem seek_spec (p : α → Bool) (slots : List (Option α)) {cursor cursor' : ℕ} {a : α}
    (h : seek p slots cursor = some (a, cursor')) :
    p a = true ∧ cursor < cursor' ∧ cursor' ≤ slots.length := by
  by_cases hlt : cursor < slots.length
  · have hrest : seek p slots (cursor + 1) = some (a, cursor') →
        p a = true ∧ cursor < cursor' ∧ cursor' ≤ slots.length := fun hnext => by
      obtain ⟨hpass, hlt', hle⟩ := seek_spec p slots hnext
      exact ⟨hpass, by omega, hle⟩
    obtain ⟨o, ho⟩ : ∃ o, slots[cursor]? = some o := ⟨_, List.getElem?_eq_getElem hlt⟩
    rw [seek_step p slots ho] at h
    cases o with
    | none => exact hrest h
    | some b =>
      by_cases hb : p b = true
      · simp only [hb, ↓reduceIte, Option.some.injEq, Prod.mk.injEq] at h
        obtain ⟨rfl, rfl⟩ := h
        exact ⟨hb, Nat.lt_succ_self _, hlt⟩
      · simp only [hb, Bool.false_eq_true, ↓reduceIte] at h
        exact hrest h
  · simp [seek, List.drop_eq_nil_of_le (Nat.le_of_not_lt hlt), seekFrom] at h
  termination_by slots.length - cursor

theorem seek_eq_none {p : α → Bool} {slots : List (Option α)} {cursor : ℕ}
    (h : seek p slots cursor = none) {a : α} (ha : some a ∈ slots.drop cursor) : p a = false := by
  unfold seek at h
  generalize slots.drop cursor = rest at h ha
  induction rest generalizing cursor with
  | nil => exact absurd ha List.not_mem_nil
  | cons o rest ih =>
    cases o with
    | none =>
      rcases List.mem_cons.mp ha with heq | hrest
      · cases heq
      · exact ih h hrest
    | some b =>
      simp only [seekFrom] at h
      split at h
      · cases h
      · next hb =>
        rcases List.mem_cons.mp ha with heq | hrest
        · rw [Option.some.inj heq]
          exact Bool.not_eq_true _ ▸ hb
        · exact ih h hrest

/-- Running on from a cursor is running the body where the iterator stops next, and
running on from there. -/
theorem visitFrom_seek {slotsOf : σ → List (Option α)} {body : σ → α → σ} {p : α → Bool}
    (hskip : ∀ s a, p a = false → body s a = s)
    (hlength : ∀ s a, (slotsOf (body s a)).length = (slotsOf s).length) (cursor : ℕ) (s : σ) :
    visitFrom slotsOf (fun _ => body) cursor s =
      match seek p (slotsOf s) cursor with
      | some (a, cursor') => visitFrom slotsOf (fun _ => body) cursor' (body s a)
      | none => s := by
  by_cases hlt : cursor < (slotsOf s).length
  · have ih := visitFrom_seek hskip hlength (cursor + 1) s
    obtain ⟨o, ho⟩ : ∃ o, (slotsOf s)[cursor]? = some o := ⟨_, List.getElem?_eq_getElem hlt⟩
    have hturn : ∀ s', visitSlot slotsOf (fun _ => body) s cursor = s' →
        (slotsOf s').length = (slotsOf s).length →
        visitFrom slotsOf (fun _ => body) cursor s =
          visitFrom slotsOf (fun _ => body) (cursor + 1) s' := by
      intro s' hs' hs'length
      obtain ⟨n, hn⟩ := Nat.exists_eq_add_of_lt hlt
      have hcount : (slotsOf s).length - cursor = n + 1 := by omega
      have hcount' : (slotsOf s').length - (cursor + 1) = n := by omega
      rw [visitFrom, visitFrom, hcount, hcount', List.range'_succ, List.foldl_cons, hs']
    rw [seek_step p _ ho]
    cases o with
    | none => rw [hturn s (by simp [visitSlot, ho]) rfl, ih]
    | some a =>
      by_cases ha : p a = true
      · simp only [ha, ↓reduceIte]
        exact hturn _ (by simp [visitSlot, ho]) (hlength s a)
      · simp only [ha, Bool.false_eq_true, ↓reduceIte]
        have hsame : body s a = s := hskip s a (by simpa using ha)
        rw [hturn s (by simp [visitSlot, ho, hsame]) rfl, ih]
  · have hzero : (slotsOf s).length - cursor = 0 := by omega
    rw [visitFrom, hzero, seek, List.drop_eq_nil_of_le (Nat.le_of_not_lt hlt)]
    rfl
  termination_by (slotsOf s).length - cursor

end Loops

omit [DecidableEq κ] in
/-- An iterator that stops nowhere goes over an empty map. -/
theorem keys_eq_nil_of_seek (m : SlotMap κ ν) (h : seek (fun _ => true) m.slots 0 = none) :
    m.keys = [] := by
  refine List.eq_nil_iff_forall_not_mem.mpr fun key hkey => ?_
  obtain ⟨e, he, -⟩ := List.mem_map.mp hkey
  have hslot := List.reduceOption_mem_iff.mp he
  have hstop : true = false := seek_eq_none h hslot
  cases hstop

theorem slots_delete_ne (m : SlotMap κ ν) (i j : ℕ) (e : Σ _ : κ, ν)
    (hi : m.slots[i]? = some (some e)) (hne : j ≠ i) :
    (m.delete e.1).slots[j]? = m.slots[j]? := by
  have hother : ∀ e', m.slots[j]? = some (some e') → e'.1 ≠ e.1 := by
    intro e' hj
    have hpair := List.nodupKeys_iff_pairwise.mp m.nodupKeys
    rw [List.reduceOption, List.pairwise_filterMap, List.pairwise_iff_getElem] at hpair
    obtain ⟨hi', hie⟩ := List.getElem?_eq_some_iff.mp hi
    obtain ⟨hj', hje⟩ := List.getElem?_eq_some_iff.mp hj
    rcases Nat.lt_or_gt_of_ne hne with hlt | hgt
    · exact hpair j i hj' hi' hlt e' hje e hie
    · exact (hpair i j hi' hj' hgt e hie e' hje).symm
  simp only [delete, List.getElem?_map]
  cases hj : m.slots[j]? with
  | none => rfl
  | some o =>
    cases o with
    | none => rfl
    | some e' => simp [Option.filter, hother e' hj]

@[simp] theorem length_slots_delete (m : SlotMap κ ν) (k : κ) :
    (m.delete k).slots.length = m.slots.length := by simp [delete]

theorem get_of_slot (m : SlotMap κ ν) (i : ℕ) (e : Σ _ : κ, ν)
    (hi : m.slots[i]? = some (some e)) : m.get e.1 = some e.2 := by
  rw [mem_get_iff, entries, List.reduceOption_mem_iff]
  exact List.mem_of_getElem? hi

end SlotMap
