import EdgeCache.MemoryList
import Mathlib.Data.List.AList
import Mathlib.Data.List.Forall2

/-!
The heap as a recency list. `Holds s a l` says that the links spell out the nodes
`l`, that the map reaches exactly these nodes, each under its own key, and that
read off in order they are the entries of the association list `a`, the most
recently touched first. Each primitive of the repository preserves this and changes
`a` by one operation of the association list.
-/
namespace EdgeCache

open LinkedList (Ref Links IsList unlink pushFront)

/-- Entries by key, the most recently touched first. -/
abbrev Recency (V : Type) := AList fun _ : String => CacheEntry V

def Recency.evict {V : Type} (a : Recency V) : Recency V :=
  match a.keys.getLast? with
  | none => a
  | some key => a.erase key

def Recency.retain {V : Type} (keep : String → CacheEntry V → Bool) (a : Recency V) :
    Recency V :=
  ⟨a.entries.filter fun e => keep e.1 e.2, a.nodupKeys.sublist List.filter_sublist⟩

section Forall₂

variable {α β : Type*} {R : α → β → Prop} {l : List α} {es : List β}

private theorem exists_right (h : List.Forall₂ R l es) {x : α} (hx : x ∈ l) :
    ∃ e ∈ es, R x e := by
  induction h with
  | nil => simp at hx
  | cons hr _ ih =>
    rcases List.mem_cons.mp hx with rfl | hx
    · exact ⟨_, List.mem_cons_self, hr⟩
    · obtain ⟨e, he, hre⟩ := ih hx
      exact ⟨e, List.mem_cons_of_mem _ he, hre⟩

private theorem exists_left (h : List.Forall₂ R l es) {e : β} (he : e ∈ es) :
    ∃ x ∈ l, R x e := by
  obtain ⟨x, hx, hr⟩ := exists_right h.flip he
  exact ⟨x, hx, hr⟩

private theorem forall₂_erase {V : Type} {R : Ref → (Σ _ : String, CacheEntry V) → Prop}
    {l : List Ref} {es : List (Σ _ : String, CacheEntry V)} (h : List.Forall₂ R l es)
    (node : Ref) (key : String)
    (hkey : ∀ x ∈ l, ∀ e, R x e → (x = node ↔ e.1 = key)) :
    List.Forall₂ R (l.erase node) (es.kerase key) := by
  induction h with
  | nil => exact List.Forall₂.nil
  | @cons x e l es hr _ ih =>
    have hx := hkey x List.mem_cons_self e hr
    by_cases hnode : x = node
    · rw [hnode, List.erase_cons_head, List.kerase_cons_eq (hx.mp hnode).symm]
      assumption
    · rw [List.erase_cons_tail (by simpa using hnode),
        List.kerase_cons_ne fun h => hnode (hx.mpr h.symm)]
      exact List.Forall₂.cons hr (ih fun y hy => hkey y (List.mem_cons_of_mem x hy))

end Forall₂

namespace MemoryCacheRepository

variable {V : Type}

structure Holds (s : MemoryCacheRepository V) (a : Recency V) (l : List Ref) : Prop where
  spelled : IsList s.links l
  stored : ∀ r, r ∈ l ↔ ∃ key, s.map.get key = some r
  keyed : ∀ key r, s.map.get key = some r → ∃ entry, s.item r = some ⟨key, entry⟩
  shown : List.Forall₂ (fun r e => s.item r = some e) l a.entries

namespace Holds

variable {s : MemoryCacheRepository V} {a : Recency V} {l : List Ref}

theorem lt_length (h : Holds s a l) {r : Ref} (hr : r ∈ l) : r < s.nodes.length := by
  obtain ⟨key, hkey⟩ := (h.stored r).mp hr
  obtain ⟨entry, hitem⟩ := h.keyed key r hkey
  exact lt_of_item s hitem

theorem mem (h : Holds s a l) {key : String} {r : Ref} (hkey : s.map.get key = some r) :
    r ∈ l := (h.stored r).mpr ⟨key, hkey⟩

theorem node_iff_key (h : Holds s a l) {key : String} {node : Ref}
    (hkey : s.map.get key = some node) (x : Ref) (hx : x ∈ l)
    (e : Σ _ : String, CacheEntry V) (hitem : s.item x = some e) : x = node ↔ e.1 = key := by
  constructor
  · intro heq
    subst heq
    obtain ⟨entry, hentry⟩ := h.keyed key x hkey
    rw [hitem, Option.some.injEq] at hentry
    rw [hentry]
  · intro heq
    subst heq
    obtain ⟨key', hkey'⟩ := (h.stored x).mp hx
    obtain ⟨entry, hentry⟩ := h.keyed key' x hkey'
    rw [hitem, Option.some.injEq] at hentry
    subst hentry
    exact Option.some.inj (hkey'.symm.trans hkey)

theorem item_mem (h : Holds s a l) {key : String} {node : Ref}
    (hkey : s.map.get key = some node) :
    ∃ entry, s.item node = some ⟨key, entry⟩ ∧ a.lookup key = some entry := by
  obtain ⟨entry, hitem⟩ := h.keyed key node hkey
  obtain ⟨e, he, hitem'⟩ := exists_right h.shown (h.mem hkey)
  rw [hitem, Option.some.injEq] at hitem'
  subst hitem'
  exact ⟨entry, hitem, AList.mem_lookup_iff.mpr he⟩

theorem get_of_lookup (h : Holds s a l) {key : String} {entry : CacheEntry V}
    (ha : a.lookup key = some entry) :
    ∃ node, s.map.get key = some node ∧ s.item node = some ⟨key, entry⟩ := by
  obtain ⟨r, hr, hitem⟩ := exists_left h.shown (AList.mem_lookup_iff.mp ha)
  obtain ⟨key', hkey'⟩ := (h.stored r).mp hr
  obtain ⟨entry', hentry'⟩ := h.keyed key' r hkey'
  rw [hitem, Option.some.injEq, Sigma.mk.injEq] at hentry'
  obtain ⟨rfl, -⟩ := hentry'
  exact ⟨r, hkey', hitem⟩

theorem get_eq_none_iff (h : Holds s a l) (key : String) :
    s.map.get key = none ↔ a.lookup key = none := by
  constructor
  · intro hnone
    by_contra hsome
    obtain ⟨entry, hentry⟩ := Option.ne_none_iff_exists'.mp hsome
    obtain ⟨node, hnode, -⟩ := h.get_of_lookup hentry
    simp [hnone] at hnode
  · intro hnone
    by_contra hsome
    obtain ⟨node, hnode⟩ := Option.ne_none_iff_exists'.mp hsome
    obtain ⟨entry, -, hentry⟩ := h.item_mem hnode
    simp [hnone] at hentry

theorem entryAt_eq (h : Holds s a l) (key : String) : s.entryAt key = a.lookup key := by
  cases hget : s.map.get key with
  | none => rw [entryAt, hget, (h.get_eq_none_iff key).mp hget, Option.bind_none]
  | some node =>
    obtain ⟨entry, hitem, hlookup⟩ := h.item_mem hget
    obtain ⟨n, hn, -, hentry⟩ := item_eq_some s node _ hitem
    rw [entryAt, hget, Option.bind_some, hn, Option.map_some, hlookup, hentry]

theorem mem_keys_iff (h : Holds s a l) (key : String) : key ∈ s.map.keys ↔ key ∈ a.keys := by
  rw [← AList.mem_keys, ← AList.lookup_isSome, ← Option.ne_none_iff_isSome, Ne,
    ← h.get_eq_none_iff, SlotMap.get_eq_none_iff, not_not]

theorem size_eq (h : Holds s a l) : s.map.size = a.keys.length := by
  have hperm : s.map.keys.Perm a.keys :=
    (List.perm_ext_iff_of_nodup s.map.keys_nodup a.keys_nodup).mpr h.mem_keys_iff
  rw [← SlotMap.length_keys, hperm.length_eq]

theorem keys_eq (h : Holds s a l) : l.map (fun r => (s.item r).map (·.1)) = a.keys.map some := by
  have hshown := h.shown
  rw [AList.keys, List.keys]
  generalize a.entries = es at hshown ⊢
  clear h
  induction hshown with
  | nil => rfl
  | cons hr _ ih =>
    rw [List.map_cons, List.map_cons, List.map_cons, ih, hr]
    rfl

/-! ### The primitives -/

theorem congr {s' : MemoryCacheRepository V} (h : Holds s a l) (hmap : s'.map = s.map)
    (hspelled : IsList s'.links l) (hitem : ∀ r ∈ l, s'.item r = s.item r) : Holds s' a l where
  spelled := hspelled
  stored r := by rw [hmap]; exact h.stored r
  keyed key r hkey := by
    rw [hmap] at hkey
    rw [hitem r (h.mem hkey)]
    exact h.keyed key r hkey
  shown := by
    refine ((List.forall₂_and_left _ _).mpr ⟨fun r hr => hr, h.shown⟩).imp ?_
    intro r e hre
    rw [hitem r hre.1, hre.2]

/-- A state that differs in neither map nor list nor nodes stands for the same list. -/
theorem frame {s' : MemoryCacheRepository V} (h : Holds s a l) (hmap : s'.map = s.map)
    (hhead : s'.head = s.head) (htail : s'.tail = s.tail) (hnodes : s'.nodes = s.nodes) :
    Holds s' a l := by
  have hlinks : s'.links = s.links := by
    simp only [links, Links.mk.injEq]
    refine ⟨funext fun x => ?_, funext fun x => ?_, hhead, htail⟩
    · rw [prevOf, prevOf, hnodes]
    · rw [nextOf, nextOf, hnodes]
  exact h.congr hmap (by rw [hlinks]; exact h.spelled) fun r _ => by rw [item, item, hnodes]

theorem empty (hmap : s.map.keys = []) (hhead : s.head = none) (htail : s.tail = none) :
    Holds s ∅ [] where
  spelled := LinkedList.isList_nil s.links hhead htail
  stored r := by
    have hnone : ∀ key, s.map.get key = none := fun key => by
      rw [SlotMap.get_eq_none_iff, hmap]
      exact List.not_mem_nil
    simp [hnone]
  keyed key r hkey := by
    have hmem := (SlotMap.mem_keys_iff s.map key).mpr ⟨r, hkey⟩
    rw [hmap] at hmem
    exact absurd hmem List.not_mem_nil
  shown := List.Forall₂.nil

/-- `this.removeNode(node); this.map.delete(key)` -/
theorem remove (h : Holds s a l) {key : String} {node : Ref}
    (hkey : s.map.get key = some node) :
    Holds ((s.removeNode node).removeFromMap key) (a.erase key) (l.erase node) := by
  have hmem := h.mem hkey
  have hmap : ((s.removeNode node).removeFromMap key).map = s.map.delete key := by
    rw [← (sameRest_removeNode s node).map_eq]
    rfl
  have hget : ∀ key' r, ((s.removeNode node).removeFromMap key).map.get key' = some r ↔
      key' ≠ key ∧ s.map.get key' = some r := by
    intro key' r
    rw [hmap, SlotMap.get_delete]
    by_cases hk : key' = key <;> simp [hk]
  have hitem : ∀ r, ((s.removeNode node).removeFromMap key).item r = s.item r :=
    item_removeNode s node
  constructor
  · have hspelled := h.spelled.unlink hmem
    rw [← links_removeNode_of_isList h.spelled (fun _ => h.lt_length) hmem] at hspelled
    exact hspelled
  · intro r
    rw [h.spelled.nodup.mem_erase_iff, h.stored r]
    simp only [hget]
    constructor
    · intro hstored
      obtain ⟨hne, key', hkey'⟩ := hstored
      refine ⟨key', ?_, hkey'⟩
      intro heq
      subst heq
      exact hne (Option.some.inj (hkey'.symm.trans hkey))
    · intro hother
      obtain ⟨key', hne, hkey'⟩ := hother
      refine ⟨?_, key', hkey'⟩
      intro heq
      subst heq
      obtain ⟨entry, hentry⟩ := h.keyed key' r hkey'
      exact hne ((h.node_iff_key hkey r hmem _ hentry).mp rfl)
  · intro key' r hkey'
    rw [hitem]
    exact h.keyed key' r ((hget key' r).mp hkey').2
  · simp only [hitem]
    exact forall₂_erase h.shown node key (h.node_iff_key hkey)

theorem touch {s' : MemoryCacheRepository V} (h : Holds s a l) {key : String} {node : Ref}
    (hkey : s.map.get key = some node) (entry : CacheEntry V) (hmap : s'.map = s.map)
    (hspelled : IsList s'.links (node :: l.erase node))
    (hnode : s'.item node = some ⟨key, entry⟩)
    (hitem : ∀ r, r ≠ node → s'.item r = s.item r) :
    Holds s' (a.insert key entry) (node :: l.erase node) := by
  have hmem := h.mem hkey
  constructor
  · exact hspelled
  · intro r
    rw [hmap, ← h.stored r, List.mem_cons, h.spelled.nodup.mem_erase_iff]
    constructor
    · intro hor
      rcases hor with rfl | hr
      · exact hmem
      · exact hr.2
    · intro hr
      by_cases hne : r = node
      · exact Or.inl hne
      · exact Or.inr ⟨hne, hr⟩
  · intro key' r hkey'
    rw [hmap] at hkey'
    obtain ⟨entry', hentry'⟩ := h.keyed key' r hkey'
    by_cases hne : r = node
    · subst hne
      have hk : key' = key := (h.node_iff_key hkey r hmem _ hentry').mp rfl
      exact ⟨entry, by rw [hnode, hk]⟩
    · exact ⟨entry', by rw [hitem r hne, hentry']⟩
  · rw [AList.entries_insert]
    refine List.Forall₂.cons hnode ?_
    have hshown := forall₂_erase h.shown node key (h.node_iff_key hkey)
    refine ((List.forall₂_and_left _ _).mpr ⟨fun r hr => hr, hshown⟩).imp ?_
    intro r e hre
    rw [hitem r (h.spelled.nodup.mem_erase_iff.mp hre.1).1, hre.2]

/-- `this.moveToFront(node); node.entry = entry` -/
theorem moveToFront_setEntry (h : Holds s a l) {key : String} {node : Ref}
    (hkey : s.map.get key = some node) (entry : CacheEntry V) :
    Holds ((s.moveToFront node).setEntry node entry) (a.insert key entry)
      (node :: l.erase node) := by
  refine h.touch hkey entry (sameRest_moveToFront s node).map_eq ?_ ?_ ?_
  · rw [links_setEntry]
    exact isList_moveToFront h.spelled (fun _ => h.lt_length) (h.mem hkey)
  · obtain ⟨old, hold⟩ := h.keyed key node hkey
    rw [item_setEntry, if_pos rfl, item_moveToFront, hold]
    rfl
  · intro r hr
    rw [item_setEntry, if_neg hr, item_moveToFront]

/-- `node.entry = entry; this.moveToFront(node)` -/
theorem setEntry_moveToFront (h : Holds s a l) {key : String} {node : Ref}
    (hkey : s.map.get key = some node) (entry : CacheEntry V) :
    Holds ((s.setEntry node entry).moveToFront node) (a.insert key entry)
      (node :: l.erase node) := by
  have hlinks : (s.setEntry node entry).links = s.links := links_setEntry s node entry
  have hrest : SameRest s (s.setEntry node entry) := rfl
  refine h.touch hkey entry (hrest.trans (sameRest_moveToFront _ node)).map_eq ?_ ?_ ?_
  · refine isList_moveToFront (hlinks ▸ h.spelled) (fun r hr => ?_) (h.mem hkey)
    simpa [setEntry] using h.lt_length hr
  · obtain ⟨old, hold⟩ := h.keyed key node hkey
    rw [item_moveToFront, item_setEntry, if_pos rfl, hold]
    rfl
  · intro r hr
    rw [item_moveToFront, item_setEntry, if_neg hr]

/-- A key the map lacks, entered before the head. -/
theorem insertNode (h : Holds s a l) {key : String} (hkey : s.map.get key = none)
    (entry : CacheEntry V) :
    Holds (s.insertNode key entry) (a.insert key entry) (s.nodes.length :: l) := by
  have hfresh : s.nodes.length ∉ l := fun hmem => absurd (h.lt_length hmem) (lt_irrefl _)
  have hne : ∀ r ∈ l, r ≠ s.nodes.length := fun r hr => (h.lt_length hr).ne
  have hmap : (s.insertNode key entry).map = s.map.set key s.nodes.length := by
    rw [insertNode_eq]
  have hget : ∀ key' r, (s.insertNode key entry).map.get key' = some r ↔
      (key' = key ∧ r = s.nodes.length) ∨ s.map.get key' = some r := by
    intro key' r
    rw [hmap, SlotMap.get_set]
    by_cases hk : key' = key
    · simp [hk, hkey, eq_comm]
    · simp [hk]
  constructor
  · rw [links_insertNode s key entry]
    · exact h.spelled.pushFront hfresh
    · intro x hx
      have hx' : s.links.head = some x := hx
      rw [h.spelled.head_eq] at hx'
      exact h.lt_length (List.mem_of_head? hx')
  · intro r
    simp only [List.mem_cons, h.stored r, hget]
    constructor
    · intro hor
      rcases hor with rfl | ⟨key', hkey'⟩
      · exact ⟨key, Or.inl ⟨rfl, rfl⟩⟩
      · exact ⟨key', Or.inr hkey'⟩
    · intro hstored
      obtain ⟨key', ⟨-, rfl⟩ | hkey'⟩ := hstored
      · exact Or.inl rfl
      · exact Or.inr ⟨key', hkey'⟩
  · intro key' r hkey'
    rw [item_insertNode]
    rcases (hget key' r).mp hkey' with ⟨rfl, rfl⟩ | hold
    · exact ⟨entry, if_pos rfl⟩
    · rw [if_neg (hne r (h.mem hold))]
      exact h.keyed key' r hold
  · have habsent : key ∉ a := AList.lookup_eq_none.mp ((h.get_eq_none_iff key).mp hkey)
    rw [AList.entries_insert_of_notMem habsent]
    refine List.Forall₂.cons (by rw [item_insertNode, if_pos rfl]) ?_
    refine ((List.forall₂_and_left _ _).mpr ⟨fun r hr => hr, h.shown⟩).imp ?_
    intro r e hre
    rw [item_insertNode, if_neg (hne r hre.1), hre.2]

theorem getLast?_keys (h : Holds s a l) :
    a.keys.getLast? = s.tail.bind fun r => s.nodes[r]?.map (·.key) := by
  have hkeys := congrArg List.getLast? h.keys_eq
  rw [List.getLast?_map, List.getLast?_map, ← h.spelled.tail_eq] at hkeys
  have htail : s.links.tail = s.tail := rfl
  rw [htail] at hkeys
  cases ht : s.tail with
  | none =>
    rw [ht, Option.map_none, eq_comm, Option.map_eq_none_iff] at hkeys
    exact hkeys
  | some node =>
    rw [ht, Option.map_some, eq_comm, Option.map_eq_some_iff] at hkeys
    obtain ⟨last, hlast, heq⟩ := hkeys
    rw [hlast, heq]
    simp [item, Function.comp_def]

theorem evictLRU (h : Holds s a l) : ∃ l', Holds s.evictLRU a.evict l' := by
  have hlast := h.getLast?_keys
  unfold MemoryCacheRepository.evictLRU Recency.evict
  cases ht : s.tail with
  | none =>
    rw [ht, Option.bind_none] at hlast
    rw [hlast]
    exact ⟨l, h⟩
  | some node =>
    obtain ⟨key, hkey⟩ := (h.stored node).mp (h.spelled.tail_mem ht)
    obtain ⟨entry, hitem⟩ := h.keyed key node hkey
    obtain ⟨n, hn, hnkey, -⟩ := item_eq_some s node _ hitem
    rw [ht, Option.bind_some, hn, Option.map_some] at hlast
    simp only [hlast, hn, hnkey]
    exact ⟨_, (h.remove hkey).frame rfl rfl rfl rfl⟩

end Holds

end MemoryCacheRepository

/-! ### Entries of a recency list -/

namespace Recency

variable {V : Type}

theorem lookup_retain (keep : String → CacheEntry V → Bool) (a : Recency V) (key : String) :
    (a.retain keep).lookup key = (a.lookup key).filter (keep key) := by
  apply Option.ext
  intro entry
  rw [← Option.mem_def, AList.mem_lookup_iff, ← Option.mem_def, Option.mem_filter_iff,
    AList.mem_lookup_iff]
  simp [retain, List.mem_filter]

theorem keys_erase_length (a : Recency V) (key : String) :
    (a.erase key).keys.length + (if key ∈ a then 1 else 0) = a.keys.length := by
  rw [AList.keys_erase]
  by_cases hmem : key ∈ a
  · have hpos := List.length_pos_of_mem (AList.mem_keys.mp hmem)
    rw [List.length_erase_of_mem (AList.mem_keys.mp hmem), if_pos hmem]
    omega
  · rw [List.erase_of_not_mem (mt AList.mem_keys.mpr hmem), if_neg hmem, Nat.add_zero]

theorem keys_insert_length (a : Recency V) (key : String) (entry : CacheEntry V) :
    (a.insert key entry).keys.length = (a.erase key).keys.length + 1 := by
  rw [AList.keys_insert, AList.keys_erase, List.length_cons]

theorem erase_of_notMem (a : Recency V) {key : String} (h : key ∉ a) : a.erase key = a := by
  apply AList.ext
  exact List.kerase_of_notMem_keys (mt AList.mem_keys.mpr h)

theorem erase_eq_retain (a : Recency V) (key : String) :
    a.erase key = a.retain fun key' _ => key' ≠ key := by
  apply AList.ext
  have hnodup := a.nodupKeys
  change a.entries.kerase key = a.entries.filter fun e => decide (e.1 ≠ key)
  generalize a.entries = es at hnodup
  induction es with
  | nil => rfl
  | cons e rest ih =>
    obtain ⟨hhead, hrest⟩ := List.nodupKeys_cons.mp hnodup
    by_cases he : e.1 = key
    · have hall : ∀ x ∈ rest, decide (x.1 ≠ key) = true := by
        intro x hx
        rw [decide_eq_true_eq]
        intro hxk
        exact hhead (by rw [he, ← hxk]; exact List.mem_keys_of_mem hx)
      rw [List.kerase_cons_eq he.symm, List.filter_cons_of_neg (by simp [he]),
        List.filter_eq_self.mpr hall]
    · rw [List.kerase_cons_ne (Ne.symm he), List.filter_cons_of_pos (by simp [he]), ih hrest]

theorem keys_retain_sublist (keep : String → CacheEntry V → Bool) (a : Recency V) :
    (a.retain keep).keys.Sublist a.keys :=
  List.Sublist.map _ List.filter_sublist

theorem keys_evict (a : Recency V) : a.evict.keys = a.keys.dropLast := by
  unfold evict
  cases hlast : a.keys.getLast? with
  | none => rw [List.getLast?_eq_none_iff.mp hlast, List.dropLast_nil]
  | some key =>
    obtain ⟨before, hkeys⟩ := List.getLast?_eq_some_iff.mp hlast
    have hnodup := a.keys_nodup
    rw [hkeys] at hnodup
    have hkey : key ∉ before := fun hmem =>
      List.disjoint_of_nodup_append hnodup hmem List.mem_cons_self
    rw [AList.keys_erase, hkeys, List.erase_append_right _ hkey]
    simp

theorem lookup_evict (a : Recency V) (key : String) :
    a.evict.lookup key = if a.keys.getLast? = some key then none else a.lookup key := by
  unfold evict
  cases hlast : a.keys.getLast? with
  | none => rfl
  | some last =>
    by_cases hk : key = last
    · rw [hk, AList.lookup_erase, if_pos rfl]
    · rw [AList.lookup_erase_ne hk, if_neg (by simpa using Ne.symm hk)]

end Recency

end EdgeCache
