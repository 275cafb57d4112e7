import EdgeCache.MemoryCache

/-!
The links of the LRU nodes. The methods edit them one pointer at a time, through
neighbours that may or may not exist; here each splice of the source is shown to be
a splice of the list library, and to leave what the nodes carry as it is.
-/
namespace EdgeCache

open LinkedList (Ref Links IsList unlink pushFront)

namespace MemoryCacheRepository

variable {V : Type}

def links (s : MemoryCacheRepository V) : Links where
  prev := s.prevOf
  next := s.nextOf
  head := s.head
  tail := s.tail

/-- What a node carries besides its links. -/
def item (s : MemoryCacheRepository V) (node : Ref) : Option (Σ _ : String, CacheEntry V) :=
  s.nodes[node]?.map fun n => ⟨n.key, n.entry⟩

theorem item_eq_some (s : MemoryCacheRepository V) (node : Ref)
    (e : Σ _ : String, CacheEntry V) (h : s.item node = some e) :
    ∃ n, s.nodes[node]? = some n ∧ n.key = e.1 ∧ n.entry = e.2 := by
  simp only [item, Option.map_eq_some_iff] at h
  obtain ⟨n, hn, rfl⟩ := h
  exact ⟨n, hn, rfl, rfl⟩

theorem lt_of_item (s : MemoryCacheRepository V) {node : Ref}
    {e : Σ _ : String, CacheEntry V} (h : s.item node = some e) : node < s.nodes.length := by
  obtain ⟨n, hn, -⟩ := item_eq_some s node e h
  exact (List.getElem?_eq_some_iff.mp hn).1

/-! ### Reads after writes -/

theorem nextOf_setNext (s : MemoryCacheRepository V) (node x : Ref) (next : Option Ref)
    (h : node < s.nodes.length) :
    (s.setNext node next).nextOf x = if x = node then next else s.nextOf x := by
  by_cases hx : x = node
  · subst hx
    simp [nextOf, setNext, List.getElem?_eq_getElem h]
  · simp [nextOf, setNext, hx, Ne.symm hx]

theorem prevOf_setPrev (s : MemoryCacheRepository V) (node x : Ref) (prev : Option Ref)
    (h : node < s.nodes.length) :
    (s.setPrev node prev).prevOf x = if x = node then prev else s.prevOf x := by
  by_cases hx : x = node
  · subst hx
    simp [prevOf, setPrev, List.getElem?_eq_getElem h]
  · simp [prevOf, setPrev, hx, Ne.symm hx]

@[simp] theorem prevOf_setNext (s : MemoryCacheRepository V) (node x : Ref) (next : Option Ref) :
    (s.setNext node next).prevOf x = s.prevOf x := by
  by_cases hx : node = x <;> cases hn : s.nodes[x]? <;>
    simp [prevOf, setNext, hx, hn]

@[simp] theorem nextOf_setPrev (s : MemoryCacheRepository V) (node x : Ref) (prev : Option Ref) :
    (s.setPrev node prev).nextOf x = s.nextOf x := by
  by_cases hx : node = x <;> cases hn : s.nodes[x]? <;>
    simp [nextOf, setPrev, hx, hn]

@[simp] theorem item_setNext (s : MemoryCacheRepository V) (node x : Ref) (next : Option Ref) :
    (s.setNext node next).item x = s.item x := by
  by_cases hx : node = x <;> cases hn : s.nodes[x]? <;>
    simp [item, setNext, hx, hn]

@[simp] theorem item_setPrev (s : MemoryCacheRepository V) (node x : Ref) (prev : Option Ref) :
    (s.setPrev node prev).item x = s.item x := by
  by_cases hx : node = x <;> cases hn : s.nodes[x]? <;>
    simp [item, setPrev, hx, hn]

@[simp] theorem length_setNext (s : MemoryCacheRepository V) (node : Ref) (next : Option Ref) :
    (s.setNext node next).nodes.length = s.nodes.length := by simp [setNext]

@[simp] theorem length_setPrev (s : MemoryCacheRepository V) (node : Ref) (prev : Option Ref) :
    (s.setPrev node prev).nodes.length = s.nodes.length := by simp [setPrev]

@[simp] theorem head_setNext (s : MemoryCacheRepository V) (node : Ref) (next : Option Ref) :
    (s.setNext node next).head = s.head := rfl

@[simp] theorem tail_setNext (s : MemoryCacheRepository V) (node : Ref) (next : Option Ref) :
    (s.setNext node next).tail = s.tail := rfl

@[simp] theorem head_setPrev (s : MemoryCacheRepository V) (node : Ref) (prev : Option Ref) :
    (s.setPrev node prev).head = s.head := rfl

@[simp] theorem tail_setPrev (s : MemoryCacheRepository V) (node : Ref) (prev : Option Ref) :
    (s.setPrev node prev).tail = s.tail := rfl

@[simp] theorem links_setEntry (s : MemoryCacheRepository V) (node : Ref)
    (entry : CacheEntry V) : (s.setEntry node entry).links = s.links := by
  have hprev : (s.setEntry node entry).prevOf = s.prevOf := by
    funext x
    by_cases hx : node = x <;> cases hn : s.nodes[x]? <;>
      simp [prevOf, setEntry, hx, hn]
  have hnext : (s.setEntry node entry).nextOf = s.nextOf := by
    funext x
    by_cases hx : node = x <;> cases hn : s.nodes[x]? <;>
      simp [nextOf, setEntry, hx, hn]
  simp only [links, hprev, hnext]
  rfl

theorem item_setEntry (s : MemoryCacheRepository V) (node x : Ref) (entry : CacheEntry V) :
    (s.setEntry node entry).item x =
      if x = node then (s.item x).map fun e => ⟨e.1, entry⟩ else s.item x := by
  by_cases hx : x = node
  · subst hx
    simp [item, setEntry, Function.comp_def]
  · simp [item, setEntry, hx, Ne.symm hx]

/-! ### What a splice leaves alone -/

/-- The two states differ in the list at most, not in the map, the index or the rest. -/
def SameRest (s s' : MemoryCacheRepository V) : Prop :=
  s' = { s with head := s'.head, tail := s'.tail, nodes := s'.nodes }

namespace SameRest

variable {s s' s'' : MemoryCacheRepository V}

theorem trans (h : SameRest s s') (h' : SameRest s' s'') : SameRest s s'' := by
  unfold SameRest at *
  rw [h', h]

theorem map_eq (h : SameRest s s') : s'.map = s.map := by
  rw [SameRest] at h
  rw [h]

theorem tagIndex_eq (h : SameRest s s') : s'.tagIndex = s.tagIndex := by
  rw [SameRest] at h
  rw [h]

theorem sets_eq (h : SameRest s s') : s'.sets = s.sets := by
  rw [SameRest] at h
  rw [h]

theorem maxEntries_eq (h : SameRest s s') : s'.maxEntries = s.maxEntries := by
  rw [SameRest] at h
  rw [h]

theorem defaultTtl_eq (h : SameRest s s') : s'.defaultTtl = s.defaultTtl := by
  rw [SameRest] at h
  rw [h]

theorem stats_eq (h : SameRest s s') : s'.stats = s.stats := by
  rw [SameRest] at h
  rw [h]

theorem evictions_eq (h : SameRest s s') : s'.evictions = s.evictions := by
  rw [SameRest] at h
  rw [h]

end SameRest

theorem sameRest_bypassForward (s : MemoryCacheRepository V) (node : Ref) :
    SameRest s (s.bypassForward node) := by
  unfold bypassForward
  split <;> rfl

theorem sameRest_bypassBackward (s : MemoryCacheRepository V) (node : Ref) :
    SameRest s (s.bypassBackward node) := by
  unfold bypassBackward
  split <;> rfl

theorem sameRest_removeNode (s : MemoryCacheRepository V) (node : Ref) :
    SameRest s (s.removeNode node) := by
  have h := (sameRest_bypassForward s node).trans
    (sameRest_bypassBackward (s.bypassForward node) node)
  exact h.trans rfl

theorem sameRest_linkFront (s : MemoryCacheRepository V) (node : Ref) :
    SameRest s (s.linkFront node) := by
  unfold linkFront
  cases s.head <;> simp only <;> split <;> rfl

theorem sameRest_moveToFront (s : MemoryCacheRepository V) (node : Ref) :
    SameRest s (s.moveToFront node) := by
  unfold moveToFront
  split
  · rfl
  · have h : SameRest s (((s.removeNode node).setNext node (s.removeNode node).head).setPrev
        node none) := (sameRest_removeNode s node).trans rfl
    exact h.trans (sameRest_linkFront _ node)

/-! ### The splices in terms of links -/

theorem links_setNext (s : MemoryCacheRepository V) (node : Ref) (next : Option Ref)
    (h : node < s.nodes.length) :
    (s.setNext node next).links =
      { s.links with next := fun x => if x = node then next else s.links.next x } := by
  simp only [links, head_setNext, tail_setNext, Links.mk.injEq, and_true]
  exact ⟨funext fun x => prevOf_setNext s node x next,
    funext fun x => nextOf_setNext s node x next h⟩

theorem links_setPrev (s : MemoryCacheRepository V) (node : Ref) (prev : Option Ref)
    (h : node < s.nodes.length) :
    (s.setPrev node prev).links =
      { s.links with prev := fun x => if x = node then prev else s.links.prev x } := by
  simp only [links, head_setPrev, tail_setPrev, Links.mk.injEq, and_true]
  exact ⟨funext fun x => prevOf_setPrev s node x prev h,
    funext fun x => nextOf_setPrev s node x prev⟩

theorem links_bypassForward (s : MemoryCacheRepository V) (node : Ref)
    (hprev : ∀ p, s.prevOf node = some p → p < s.nodes.length) :
    (s.bypassForward node).links =
      { s.links with
        next := fun x => if s.prevOf node = some x then s.nextOf node else s.nextOf x
        head := if s.prevOf node = none then s.nextOf node else s.head } := by
  cases hp : s.prevOf node with
  | none =>
    simp only [bypassForward, hp, reduceCtorEq, ↓reduceIte]
    rfl
  | some p =>
    simp only [bypassForward, hp, links, Links.mk.injEq, Option.some.injEq, reduceCtorEq,
      ↓reduceIte]
    refine ⟨funext fun x => prevOf_setNext s p x _, funext fun x => ?_, rfl, rfl⟩
    rw [nextOf_setNext s p x _ (hprev p hp)]
    simp only [eq_comm]

theorem links_bypassBackward (s : MemoryCacheRepository V) (node : Ref)
    (hnext : ∀ n, s.nextOf node = some n → n < s.nodes.length) :
    (s.bypassBackward node).links =
      { s.links with
        prev := fun x => if s.nextOf node = some x then s.prevOf node else s.prevOf x
        tail := if s.nextOf node = none then s.prevOf node else s.tail } := by
  cases hn : s.nextOf node with
  | none =>
    simp only [bypassBackward, hn, reduceCtorEq, ↓reduceIte]
    rfl
  | some n =>
    simp only [bypassBackward, hn, links, Links.mk.injEq, Option.some.injEq, reduceCtorEq,
      ↓reduceIte]
    refine ⟨funext fun x => ?_, funext fun x => nextOf_setPrev s n x _, rfl, rfl⟩
    rw [prevOf_setPrev s n x _ (hnext n hn)]
    simp only [eq_comm]

@[simp] theorem length_bypassForward (s : MemoryCacheRepository V) (node : Ref) :
    (s.bypassForward node).nodes.length = s.nodes.length := by
  unfold bypassForward
  split <;> simp

@[simp] theorem length_bypassBackward (s : MemoryCacheRepository V) (node : Ref) :
    (s.bypassBackward node).nodes.length = s.nodes.length := by
  unfold bypassBackward
  split <;> simp

@[simp] theorem item_removeNode (s : MemoryCacheRepository V) (node x : Ref) :
    (s.removeNode node).item x = s.item x := by
  have hforward : ∀ s : MemoryCacheRepository V, (s.bypassForward node).item x = s.item x := by
    intro s
    unfold bypassForward
    split
    · exact item_setNext ..
    · rfl
  have hbackward : ∀ s : MemoryCacheRepository V, (s.bypassBackward node).item x = s.item x := by
    intro s
    unfold bypassBackward
    split
    · exact item_setPrev ..
    · rfl
  rw [removeNode, item_setNext, item_setPrev, hbackward, hforward]

/-- The source updates the neighbours one pointer at a time; the result is the
splice of the list library. -/
theorem links_removeNode (s : MemoryCacheRepository V) (node : Ref)
    (hnode : node < s.nodes.length)
    (hprev : ∀ p, s.prevOf node = some p → p ≠ node ∧ p < s.nodes.length)
    (hnext : ∀ n, s.nextOf node = some n → n ≠ node ∧ n < s.nodes.length) :
    (s.removeNode node).links = unlink s.links node := by
  have hforward := links_bypassForward s node fun p hp => (hprev p hp).2
  have hself : s.prevOf node ≠ some node := fun h => (hprev node h).1 rfl
  have hnextOf : ∀ x, (s.bypassForward node).nextOf x =
      if s.prevOf node = some x then s.nextOf node else s.nextOf x :=
    fun x => congrFun (congrArg Links.next hforward) x
  have hprevOf : ∀ x, (s.bypassForward node).prevOf x = s.prevOf x :=
    fun x => congrFun (congrArg Links.prev hforward) x
  have hnode' : (s.bypassForward node).nextOf node = s.nextOf node := by
    rw [hnextOf, if_neg hself]
  have hbackward := links_bypassBackward (s.bypassForward node) node
    (by simpa [hnode'] using fun n hn => (hnext n hn).2)
  simp only [hnode', hprevOf] at hbackward
  rw [removeNode, links_setNext _ _ _ (by simpa using hnode),
    links_setPrev _ _ _ (by simpa using hnode), hbackward, hforward]
  simp only [unlink, Links.mk.injEq]
  refine ⟨rfl, rfl, rfl, ?_⟩
  exact congrArg (fun t => if s.nextOf node = none then s.prevOf node else t)
    (congrArg Links.tail hforward)

@[simp] theorem length_removeNode (s : MemoryCacheRepository V) (node : Ref) :
    (s.removeNode node).nodes.length = s.nodes.length := by simp [removeNode]

theorem links_linkFront (s : MemoryCacheRepository V) (node : Ref)
    (hhead : ∀ h, s.head = some h → h < s.nodes.length) :
    (s.linkFront node).links =
      { prev := fun x => if s.head = some x then some node else s.prevOf x
        next := s.nextOf
        head := some node
        tail := if s.tail = none then some node else s.tail } := by
  cases hh : s.head with
  | none =>
    by_cases ht : s.tail = none
    · simp only [linkFront, hh, ht, links, reduceCtorEq, ↓reduceIte]
      rfl
    · simp only [linkFront, hh, ht, links, reduceCtorEq, ↓reduceIte]
      rfl
  | some h =>
    have hprev : ∀ x, (s.setPrev h (some node)).prevOf x =
        if s.head = some x then some node else s.prevOf x := by
      intro x
      rw [prevOf_setPrev s h x _ (hhead h hh), hh]
      simp only [Option.some.injEq, eq_comm]
    have hnext : (s.setPrev h (some node)).nextOf = s.nextOf :=
      funext fun x => nextOf_setPrev s h x _
    rw [← hh, ← hnext, ← funext hprev]
    by_cases ht : s.tail = none
    · simp only [linkFront, hh, ht, links, tail_setPrev, ↓reduceIte]
      rfl
    · simp only [linkFront, hh, ht, links, tail_setPrev, ↓reduceIte]
      rfl

@[simp] theorem item_linkFront (s : MemoryCacheRepository V) (node x : Ref) :
    (s.linkFront node).item x = s.item x := by
  cases hh : s.head with
  | none =>
    simp only [linkFront, hh]
    split <;> rfl
  | some h =>
    simp only [linkFront, hh]
    split <;> exact item_setPrev s h x (some node)

/-! ### The splices on a spelled list -/

section Spelled

variable {s : MemoryCacheRepository V} {l : List Ref} {node : Ref}

theorem links_removeNode_of_isList (h : IsList s.links l)
    (hlt : ∀ r ∈ l, r < s.nodes.length) (hnode : node ∈ l) :
    (s.removeNode node).links = unlink s.links node := by
  obtain ⟨before, after, hl⟩ := List.append_of_mem hnode
  have hnodup := h.nodup
  rw [hl] at hnodup
  have hprev := h.prev_eq before node after hl
  have hnext := h.next_eq before node after hl
  refine links_removeNode s node (hlt node hnode) ?_ ?_
  · intro p hp
    have hmem : p ∈ before := List.mem_of_getLast? (hprev.symm.trans hp)
    refine ⟨?_, hlt p (by simp [hl, hmem])⟩
    intro heq
    subst heq
    exact List.disjoint_of_nodup_append hnodup hmem List.mem_cons_self
  · intro n hn
    have hmem : n ∈ after := List.mem_of_head? (hnext.symm.trans hn)
    refine ⟨?_, hlt n (by simp [hl, hmem])⟩
    intro heq
    subst heq
    exact (List.nodup_cons.mp (List.Nodup.of_append_right hnodup)).1 hmem

theorem isList_moveToFront (h : IsList s.links l) (hlt : ∀ r ∈ l, r < s.nodes.length)
    (hnode : node ∈ l) : IsList (s.moveToFront node).links (node :: l.erase node) := by
  by_cases hhead : s.head = some node
  · rw [moveToFront, if_pos hhead, h.front_eq hhead]
    exact h
  · rw [moveToFront, if_neg hhead]
    have hspelled := h.unlink hnode
    rw [← links_removeNode_of_isList h hlt hnode] at hspelled
    have hpush := hspelled.pushFront h.nodup.not_mem_erase
    have hfirst : ∀ x, (s.removeNode node).head = some x → x ∈ l.erase node := by
      intro x hx
      have hx' : (s.removeNode node).links.head = some x := hx
      rw [hspelled.head_eq] at hx'
      exact List.mem_of_head? hx'
    have hnodeHead : (s.removeNode node).head ≠ some node := fun hx =>
      h.nodup.not_mem_erase (hfirst node hx)
    have hlength : node < (s.removeNode node).nodes.length := by
      rw [length_removeNode]
      exact hlt node hnode
    convert hpush using 1
    rw [links_linkFront _ _ ?_, pushFront, Links.mk.injEq]
    · refine ⟨funext fun x => ?_, funext fun x => ?_, rfl, rfl⟩
      · rw [prevOf_setPrev _ _ _ _ (by simpa using hlength), prevOf_setNext]
        by_cases hx : x = node
        · simp [hx, hnodeHead]
        · simp only [hx, ↓reduceIte]
          rfl
      · rw [nextOf_setPrev, nextOf_setNext _ _ _ _ hlength]
        rfl
    · intro x hx
      simpa using hlt x (List.mem_of_mem_erase (hfirst x hx))

end Spelled

/-! ### Inserting a fresh node -/

private theorem getElem?_concat (nodes : List (LRUNode V)) (n : LRUNode V) (x : Ref) :
    (nodes ++ [n])[x]? = if x = nodes.length then some n else nodes[x]? := by
  rcases Nat.lt_trichotomy x nodes.length with hlt | rfl | hgt
  · rw [List.getElem?_append_left hlt, if_neg hlt.ne]
  · simp
  · rw [if_neg hgt.ne', List.getElem?_eq_none (by simpa using Nat.succ_le_of_lt hgt),
      List.getElem?_eq_none hgt.le]

/-- The heap with one more node, not linked yet. -/
def allocate (s : MemoryCacheRepository V) (key : String) (entry : CacheEntry V) :
    MemoryCacheRepository V :=
  { s with nodes := s.nodes ++ [LRUNode.mk key entry none s.head] }

theorem insertNode_eq (s : MemoryCacheRepository V) (key : String) (entry : CacheEntry V) :
    s.insertNode key entry =
      { (s.allocate key entry).linkFront s.nodes.length with
        map := s.map.set key s.nodes.length } := by
  have hmap : ((s.allocate key entry).linkFront s.nodes.length).map = s.map :=
    (sameRest_linkFront _ _).map_eq
  rw [← hmap]
  rfl

theorem item_insertNode (s : MemoryCacheRepository V) (key : String) (entry : CacheEntry V)
    (x : Ref) :
    (s.insertNode key entry).item x =
      if x = s.nodes.length then some ⟨key, entry⟩ else s.item x := by
  have hitem : (s.insertNode key entry).item x = (s.allocate key entry).item x :=
    item_linkFront _ s.nodes.length x
  rw [hitem, item, allocate, getElem?_concat]
  split <;> rfl

/-- Appending a fresh node and linking it in front pushes its address. -/
theorem links_insertNode (s : MemoryCacheRepository V) (key : String) (entry : CacheEntry V)
    (hhead : ∀ h, s.head = some h → h < s.nodes.length) :
    (s.insertNode key entry).links = pushFront s.links s.nodes.length := by
  have hlinks := links_linkFront (s.allocate key entry) s.nodes.length fun h hh => by
    simp only [allocate, List.length_append, List.length_singleton]
    exact Nat.lt_succ_of_lt (hhead h hh)
  have heq : (s.insertNode key entry).links =
      ((s.allocate key entry).linkFront s.nodes.length).links := rfl
  rw [heq, hlinks, pushFront, Links.mk.injEq]
  refine ⟨funext fun x => ?_, funext fun x => ?_, rfl, rfl⟩
  · have hne : s.head ≠ some s.nodes.length := fun hh => absurd (hhead _ hh) (lt_irrefl _)
    simp only [prevOf, allocate, getElem?_concat]
    by_cases hx : x = s.nodes.length
    · simp [hx, hne]
    · simp only [hx, ↓reduceIte]
      rfl
  · simp only [nextOf, allocate, getElem?_concat]
    by_cases hx : x = s.nodes.length
    · simp only [hx, ↓reduceIte]
      rfl
    · simp only [hx, ↓reduceIte]
      rfl

theorem item_moveToFront (s : MemoryCacheRepository V) (node x : Ref) :
    (s.moveToFront node).item x = s.item x := by
  unfold moveToFront
  split
  · rfl
  · rw [item_linkFront, item_setPrev, item_setNext, item_removeNode]

end MemoryCacheRepository

end EdgeCache
