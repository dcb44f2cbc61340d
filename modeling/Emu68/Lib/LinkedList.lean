import Mathlib.Data.List.Chain
import Mathlib.Data.List.Nodup

/-!
Doubly linked lists threaded through nodes by next and previous links, with a head and a tail
sentinel. `IsList links head tail nodes` says that the links form the list `nodes` between the two
sentinels. The lemmas give the effect of joining two nodes, of cutting one out and of putting one
in, and say that changes to other nodes do not matter.
-/

set_option autoImplicit false
set_option relaxedAutoImplicit false

namespace Emu68.Lib

/-- The link words of a family of list nodes; `none` is the null pointer. -/
structure Links (N : Type*) where
  next : N → Option N
  prev : N → Option N

namespace Links

variable {N : Type*}

/-- `a` and `b` are neighbours: each points at the other. -/
def Adj (links : Links N) (a b : N) : Prop :=
  links.next a = some b ∧ links.prev b = some a

/-- The nodes visited from `node` by following next links up to, and without, the node whose next
link is null. `none` when the fuel does not reach that node. -/
def walk (links : Links N) : ℕ → N → Option (List N)
  | 0, _ => none
  | fuel + 1, node =>
    match links.next node with
    | none => some []
    | some successor => (links.walk fuel successor).map (node :: ·)

/-- The links form the list `nodes` between the sentinels `head` and `tail`. -/
structure IsList (links : Links N) (head tail : N) (nodes : List N) : Prop where
  chain : List.IsChain links.Adj (head :: (nodes ++ [tail]))
  head_prev : links.prev head = none
  tail_next : links.next tail = none
  nodup : (head :: (nodes ++ [tail])).Nodup

section Frame

variable {links other : Links N} {head tail : N} {nodes : List N}

theorem isChain_congr {chain : List N} (h : chain.IsChain links.Adj)
    (hnext : ∀ a ∈ chain.dropLast, other.next a = links.next a)
    (hprev : ∀ b ∈ chain.tail, other.prev b = links.prev b) : chain.IsChain other.Adj := by
  induction chain with
  | nil => exact .nil
  | cons a rest ih =>
    cases rest with
    | nil => exact .singleton a
    | cons b rest =>
      rw [List.isChain_cons_cons] at h ⊢
      refine ⟨⟨?_, ?_⟩, ih h.2 ?_ ?_⟩
      · rw [hnext a (by simp)]
        exact h.1.1
      · rw [hprev b (by simp)]
        exact h.1.2
      · intro c hc
        exact hnext c (by simp only [List.dropLast_cons_cons, List.mem_cons]; exact Or.inr hc)
      · intro c hc
        exact hprev c (by simp only [List.tail_cons] at hc ⊢; exact List.mem_cons_of_mem _ hc)

/-- A list is unchanged by writes to links of other nodes. -/
theorem IsList.congr (h : IsList links head tail nodes)
    (hnext : ∀ a ∈ head :: (nodes ++ [tail]), other.next a = links.next a)
    (hprev : ∀ a ∈ head :: (nodes ++ [tail]), other.prev a = links.prev a) :
    IsList other head tail nodes where
  chain := isChain_congr h.chain (fun a ha ↦ hnext a (List.dropLast_subset _ ha))
    (fun b hb ↦ hprev b (List.mem_of_mem_tail hb))
  head_prev := by rw [hprev head (by simp), h.head_prev]
  tail_next := by rw [hnext tail (by simp), h.tail_next]
  nodup := h.nodup

theorem walk_of_isChain {a : N} {rest : List N}
    (hchain : List.IsChain links.Adj (a :: (rest ++ [tail]))) (htail : links.next tail = none)
    {fuel : ℕ} (hfuel : rest.length + 2 ≤ fuel) : links.walk fuel a = some (a :: rest) := by
  induction rest generalizing a fuel with
  | nil =>
    rw [List.length_nil] at hfuel
    obtain ⟨k, rfl⟩ : ∃ k, fuel = k + 2 := ⟨fuel - 2, by omega⟩
    have hadj := (List.isChain_cons_cons.mp hchain).1
    simp [walk, hadj.1, htail]
  | cons b rest ih =>
    obtain ⟨k, rfl⟩ : ∃ k, fuel = k + 1 := ⟨fuel - 1, by omega⟩
    obtain ⟨hadj, hrest⟩ := List.isChain_cons_cons.mp hchain
    have hk : rest.length + 2 ≤ k := by
      simp only [List.length_cons] at hfuel
      omega
    have hwalk := ih hrest hk
    simp [walk, hadj.1, hwalk]

/-- Following next links from the head visits the head and then the nodes in order. -/
theorem IsList.walk (h : IsList links head tail nodes) {fuel : ℕ}
    (hfuel : nodes.length + 2 ≤ fuel) : links.walk fuel head = some (head :: nodes) :=
  walk_of_isChain h.chain h.tail_next hfuel

/-- The node before the tail is the last node of the list, or the head of an empty one. -/
theorem IsList.tail_prev (h : IsList links head tail nodes) :
    links.prev tail = some (nodes.getLastD head) := by
  rcases List.eq_nil_or_concat nodes with rfl | ⟨front, last, rfl⟩
  · exact (List.isChain_cons_cons.mp h.chain).1.2
  · have hchain := h.chain
    have hsplit : head :: (front.concat last ++ [tail]) = (head :: front) ++ last :: tail :: [] := by
      simp
    rw [hsplit, List.isChain_append_cons_cons] at hchain
    rw [hchain.2.1.2]
    simp

end Frame

section Update

variable [DecidableEq N]

def setNext (links : Links N) (a : N) (b : Option N) : Links N :=
  { links with next := Function.update links.next a b }

def setPrev (links : Links N) (a : N) (b : Option N) : Links N :=
  { links with prev := Function.update links.prev a b }

@[simp] theorem setNext_next (links : Links N) (a : N) (b : Option N) :
    (links.setNext a b).next = Function.update links.next a b := rfl

@[simp] theorem setNext_prev (links : Links N) (a : N) (b : Option N) :
    (links.setNext a b).prev = links.prev := rfl

@[simp] theorem setPrev_next (links : Links N) (a : N) (b : Option N) :
    (links.setPrev a b).next = links.next := rfl

@[simp] theorem setPrev_prev (links : Links N) (a : N) (b : Option N) :
    (links.setPrev a b).prev = Function.update links.prev a b := rfl

/-- Make `a` and `b` neighbours. -/
def join (links : Links N) (a b : N) : Links N :=
  (links.setNext a (some b)).setPrev b (some a)

variable {links : Links N} {head tail n : N} {nodes before after : List N}

theorem join_next (a b c : N) :
    (links.join a b).next c = if c = a then some b else links.next c := by
  simp [join, Function.update_apply]

theorem join_prev (a b c : N) :
    (links.join a b).prev c = if c = b then some a else links.prev c := by
  simp [join, Function.update_apply]

theorem join_adj (a b : N) : (links.join a b).Adj a b := by
  simp [Adj, join]

/-- Joining neighbours again changes nothing. -/
theorem join_of_adj {a b : N} (h : links.Adj a b) : links.join a b = links := by
  cases links with
  | mk next prev =>
    simp only [Adj] at h
    simp only [join, setNext, setPrev, ← h.1, ← h.2, Function.update_eq_self]

/-- Joining the neighbours of a node cuts it out of the chain. -/
theorem isChain_join_of_remove {p q : N}
    (h : List.IsChain links.Adj (before ++ p :: n :: q :: after))
    (hnodup : (before ++ p :: n :: q :: after).Nodup) :
    List.IsChain (links.join p q).Adj (before ++ p :: q :: after) := by
  rw [List.isChain_append_cons_cons] at h
  obtain ⟨hbefore, -, hafter⟩ := h
  rw [List.isChain_append_cons_cons]
  simp only [List.nodup_append, List.nodup_cons, List.mem_cons, not_or] at hnodup
  obtain ⟨-, ⟨⟨-, hpq, hpa⟩, -, hqa, -⟩, hdisj⟩ := hnodup
  refine ⟨isChain_congr hbefore ?_ ?_, join_adj p q,
    isChain_congr (List.isChain_cons_cons.mp hafter).2 ?_ ?_⟩
  · intro a ha
    rw [List.dropLast_concat] at ha
    have hne : a ≠ p := fun heq ↦ hdisj a ha p (Or.inl rfl) heq
    rw [join_next, if_neg hne]
  · intro b hb
    have hne : b ≠ q := by
      rintro rfl
      rcases List.mem_append.mp (List.mem_of_mem_tail hb) with hb | hb
      · exact hdisj b hb b (Or.inr (Or.inr (Or.inl rfl))) rfl
      · exact hpq (List.mem_singleton.mp hb).symm
    rw [join_prev, if_neg hne]
  · intro a ha
    have hne : a ≠ p := by
      rintro rfl
      rcases List.mem_cons.mp (List.dropLast_subset _ ha) with rfl | ha
      · exact hpq rfl
      · exact hpa ha
    rw [join_next, if_neg hne]
  · intro b hb
    have hne : b ≠ q := fun heq ↦ hqa (heq ▸ hb)
    rw [join_prev, if_neg hne]

/-- Joining a fresh node to both of two neighbours puts it between them. -/
theorem isChain_join_of_insert {p q : N}
    (h : List.IsChain links.Adj (before ++ p :: q :: after))
    (hnodup : (before ++ p :: n :: q :: after).Nodup) :
    List.IsChain ((links.join n q).join p n).Adj (before ++ p :: n :: q :: after) := by
  rw [List.isChain_append_cons_cons] at h
  obtain ⟨hbefore, -, hafter⟩ := h
  simp only [List.nodup_append, List.nodup_cons, List.mem_cons, not_or] at hnodup
  obtain ⟨-, ⟨⟨hpn, hpq, hpa⟩, ⟨hnq, hna⟩, hqa, -⟩, hdisj⟩ := hnodup
  rw [List.isChain_append_cons_cons, List.isChain_cons_cons]
  refine ⟨isChain_congr hbefore ?_ ?_, join_adj p n, ⟨?_, ?_⟩, isChain_congr hafter ?_ ?_⟩
  · intro a ha
    rw [List.dropLast_concat] at ha
    have hp : a ≠ p := fun heq ↦ hdisj a ha p (Or.inl rfl) heq
    have hn : a ≠ n := fun heq ↦ hdisj a ha n (Or.inr (Or.inl rfl)) heq
    rw [join_next, if_neg hp, join_next, if_neg hn]
  · intro b hb
    have hmem := List.mem_append.mp (List.mem_of_mem_tail hb)
    have hn : b ≠ n := by
      rintro rfl
      rcases hmem with hb | hb
      · exact hdisj b hb b (Or.inr (Or.inl rfl)) rfl
      · exact hpn (List.mem_singleton.mp hb).symm
    have hq : b ≠ q := by
      rintro rfl
      rcases hmem with hb | hb
      · exact hdisj b hb b (Or.inr (Or.inr (Or.inl rfl))) rfl
      · exact hpq (List.mem_singleton.mp hb).symm
    rw [join_prev, if_neg hn, join_prev, if_neg hq]
  · rw [join_next, if_neg (Ne.symm hpn), join_next, if_pos rfl]
  · rw [join_prev, if_neg (Ne.symm hnq), join_prev, if_pos rfl]
  · intro a ha
    have hmem := List.mem_cons.mp (List.dropLast_subset _ ha)
    have hp : a ≠ p := by
      rintro rfl
      rcases hmem with rfl | ha
      · exact hpq rfl
      · exact hpa ha
    have hn : a ≠ n := by
      rintro rfl
      rcases hmem with rfl | ha
      · exact hnq rfl
      · exact hna ha
    rw [join_next, if_neg hp, join_next, if_neg hn]
  · intro b hb
    have hn : b ≠ n := fun heq ↦ hna (heq ▸ hb)
    have hq : b ≠ q := fun heq ↦ hqa (heq ▸ hb)
    rw [join_prev, if_neg hn, join_prev, if_neg hq]

omit [DecidableEq N] in
/-- Two sentinels joined to each other, with null outer links, are the empty list. -/
theorem IsList.nil (hadj : links.Adj head tail) (hhead : links.prev head = none)
    (htail : links.next tail = none) (hne : head ≠ tail) : IsList links head tail [] where
  chain := by simpa using hadj
  head_prev := hhead
  tail_next := htail
  nodup := by simpa using hne

/-- Cutting a node out of a list. The neighbours are found in the node's own links, and only
links of nodes of the list are written. -/
theorem IsList.remove (h : IsList links head tail (before ++ n :: after)) :
    ∃ p q, links.prev n = some p ∧ links.next n = some q ∧ p ∈ head :: before ∧
      q ∈ after ++ [tail] ∧ IsList (links.join p q) head tail (before ++ after) := by
  obtain ⟨front, p, hfront⟩ : ∃ front p, head :: before = front ++ [p] :=
    ⟨_, _, (List.dropLast_concat_getLast (List.cons_ne_nil head before)).symm⟩
  obtain ⟨q, back, hback⟩ : ∃ q back, after ++ [tail] = q :: back :=
    List.exists_cons_of_ne_nil (by simp)
  have hfull : head :: (before ++ n :: after ++ [tail]) = front ++ p :: n :: q :: back := by
    rw [show head :: (before ++ n :: after ++ [tail]) =
      (head :: before) ++ n :: (after ++ [tail]) by simp, hfront, hback]
    simp
  have hcut : head :: (before ++ after ++ [tail]) = front ++ p :: q :: back := by
    rw [show head :: (before ++ after ++ [tail]) = (head :: before) ++ (after ++ [tail]) by simp,
      hfront, hback]
    simp
  have hchain := h.chain
  have hnodup := h.nodup
  rw [hfull] at hchain hnodup
  have hjoined := isChain_join_of_remove hchain hnodup
  rw [List.isChain_append_cons_cons, List.isChain_cons_cons] at hchain
  obtain ⟨-, hpn, hnq, -⟩ := hchain
  have hp : p ∈ head :: before := by rw [hfront]; simp
  have hq : q ∈ after ++ [tail] := by rw [hback]; simp
  have hlist := h.nodup
  refine ⟨p, q, hpn.2, hnq.1, hp, hq, ⟨by rw [hcut]; exact hjoined, ?_, ?_, ?_⟩⟩
  · have hne : head ≠ q := by
      rintro rfl
      simp only [List.nodup_cons, List.mem_append, List.mem_cons, not_or] at hlist
      rcases List.mem_append.mp hq with hq | hq
      · exact hlist.1.1.2.2 hq
      · exact hlist.1.2.1 (List.mem_singleton.mp hq)
    rw [join_prev, if_neg hne, h.head_prev]
  · have hne : tail ≠ p := by
      rintro rfl
      rcases List.mem_cons.mp hp with rfl | hp
      · simp at hlist
      · exact (List.nodup_append.mp (List.nodup_cons.mp hlist).2).2.2 tail (by simp [hp]) tail
          (by simp) rfl
    rw [join_next, if_neg hne, h.tail_next]
  · refine List.Nodup.sublist ?_ hlist
    exact (((List.sublist_cons_self n after).append_left before).append_right [tail]).cons_cons head

/-- Putting a fresh node between two neighbours of a list. -/
theorem IsList.insert (before after front back : List N) {p q : N}
    (h : IsList links head tail (before ++ after))
    (hfront : head :: before = front ++ [p]) (hback : after ++ [tail] = q :: back)
    (hn : n ∉ head :: (before ++ after ++ [tail])) :
    IsList ((links.join n q).join p n) head tail (before ++ n :: after) := by
  have hold : head :: (before ++ after ++ [tail]) = front ++ p :: q :: back := by
    rw [show head :: (before ++ after ++ [tail]) = (head :: before) ++ (after ++ [tail]) by simp,
      hfront, hback]
    simp
  have hnew : head :: (before ++ n :: after ++ [tail]) = front ++ p :: n :: q :: back := by
    rw [show head :: (before ++ n :: after ++ [tail]) =
      (head :: before) ++ n :: (after ++ [tail]) by simp, hfront, hback]
    simp
  have hchain := h.chain
  rw [hold] at hchain
  have hnodup : (head :: (before ++ n :: after ++ [tail])).Nodup := by
    rw [show head :: (before ++ n :: after ++ [tail]) =
      (head :: before) ++ n :: (after ++ [tail]) by simp, List.nodup_middle, List.nodup_cons]
    rw [show head :: (before ++ after ++ [tail]) = (head :: before) ++ (after ++ [tail]) by
      simp] at hn
    refine ⟨hn, ?_⟩
    simpa using h.nodup
  have hp : p ∈ head :: before := by rw [hfront]; simp
  have hq : q ∈ after ++ [tail] := by rw [hback]; simp
  have hhn : head ≠ n := fun heq ↦ hn (heq ▸ List.mem_cons_self)
  have htn : tail ≠ n := fun heq ↦ hn (heq ▸ by simp)
  have hlist := h.nodup
  refine ⟨by rw [hnew]; exact isChain_join_of_insert hchain (hnew ▸ hnodup), ?_, ?_, hnodup⟩
  · have hne : head ≠ q := by
      rintro rfl
      simp only [List.nodup_cons, List.mem_append, not_or] at hlist
      rcases List.mem_append.mp hq with hq | hq
      · exact hlist.1.1.2 hq
      · exact hlist.1.2 hq
    rw [join_prev, if_neg hhn, join_prev, if_neg hne, h.head_prev]
  · have hne : tail ≠ p := by
      rintro rfl
      rcases List.mem_cons.mp hp with rfl | hp
      · simp at hlist
      · exact (List.nodup_append.mp (List.nodup_cons.mp hlist).2).2.2 tail (by simp [hp]) tail
          (by simp) rfl
    rw [join_next, if_neg hne, join_next, if_neg htn, h.tail_next]

/-- Putting a fresh node after the head. -/
theorem IsList.insertHead (h : IsList links head tail nodes)
    (hn : n ∉ head :: (nodes ++ [tail])) :
    ∃ q, links.next head = some q ∧ q ∈ nodes ++ [tail] ∧
      IsList ((links.join n q).join head n) head tail (n :: nodes) := by
  obtain ⟨q, back, hback⟩ : ∃ q back, nodes ++ [tail] = q :: back :=
    List.exists_cons_of_ne_nil (by simp)
  have hchain := h.chain
  rw [hback, List.isChain_cons_cons] at hchain
  exact ⟨q, hchain.1.1, by rw [hback]; simp,
    IsList.insert [] nodes [] back h rfl hback hn⟩

/-- Putting a fresh node before the tail. -/
theorem IsList.insertTail (h : IsList links head tail nodes)
    (hn : n ∉ head :: (nodes ++ [tail])) :
    ∃ p, links.prev tail = some p ∧ p ∈ head :: nodes ∧
      IsList ((links.join n tail).join p n) head tail (nodes ++ [n]) := by
  refine ⟨_, h.tail_prev, ?_, ?_⟩
  · rcases List.eq_nil_or_concat nodes with rfl | ⟨front, last, rfl⟩ <;> simp
  · refine IsList.insert nodes [] (head :: nodes).dropLast [] (by simpa using h) ?_ rfl
      (by simpa using hn)
    rcases List.eq_nil_or_concat nodes with rfl | ⟨front, last, rfl⟩
    · rfl
    · rw [List.concat_eq_append, ← List.cons_append, List.dropLast_concat]
      simp

end Update

end Links

end Emu68.Lib
