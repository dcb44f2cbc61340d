import Emu68.Lib.LinkedList

/-!
The exec lists of `include/lists.h`. A list header holds two sentinel nodes; the operations write
the link words in the order of the source and return `none` where the source would read through a
null pointer. `forEachNode` visits the nodes the macro `ForeachNode` visits, which begin with the
head sentinel itself.
-/

set_option autoImplicit false
set_option relaxedAutoImplicit false

namespace Emu68.Exec

open Lib

/-- `struct List`: the two sentinel nodes of a list. -/
structure ListHeader (N : Type*) where
  lhHead : N
  lhTail : N

variable {N : Type*}

/-- `ForeachNode(list, node)`: the values `node` takes, from `&list->lh_Head` up to the first node
whose `ln_Next` is null. -/
def forEachNode (fuel : ℕ) (links : Links N) (l : ListHeader N) : Option (List N) :=
  links.walk fuel l.lhHead

/-- The header's list is `nodes`. -/
abbrev Linked (links : Links N) (l : ListHeader N) (nodes : List N) : Prop :=
  links.IsList l.lhHead l.lhTail nodes

variable [DecidableEq N]

def remove (links : Links N) (n : N) : Option (Links N) :=
  match links.prev n, links.next n with
  | some p, some q => some ((links.setNext p (some q)).setPrev q (some p))
  | _, _ => none

def addHead (links : Links N) (l : ListHeader N) (n : N) : Option (Links N) :=
  let links := links.setPrev n (some l.lhHead)
  match links.next l.lhHead with
  | none => none
  | some first =>
    let links := links.setPrev first (some n)
    let links := links.setNext n (links.next l.lhHead)
    some (links.setNext l.lhHead (some n))

def addTail (links : Links N) (l : ListHeader N) (n : N) : Option (Links N) :=
  let links := links.setNext n (some l.lhTail)
  let links := links.setPrev n (links.prev l.lhTail)
  match links.prev l.lhTail with
  | none => none
  | some last =>
    let links := links.setNext last (some n)
    some (links.setPrev l.lhTail (some n))

def getTail (links : Links N) (l : ListHeader N) : Option N :=
  if links.prev l.lhTail = some l.lhHead then none else links.prev l.lhTail

/-- `REMTAIL`: the links afterwards and the node removed, if any. -/
def remTail (links : Links N) (l : ListHeader N) : Option (Links N × Option N) :=
  match getTail links l with
  | none => some (links, none)
  | some n => (remove links n).map fun links ↦ (links, some n)

def newList (links : Links N) (l : ListHeader N) : Links N :=
  let links := links.setNext l.lhHead (some l.lhTail)
  let links := links.setPrev l.lhHead none
  let links := links.setPrev l.lhTail (some l.lhHead)
  links.setNext l.lhTail none

variable {links : Links N} {l : ListHeader N} {n : N} {nodes before after : List N}

/-- `links'` differs from `links` only in the link words of the given nodes. -/
def FrameOutside (links links' : Links N) (nodes : List N) : Prop :=
  ∀ a, a ∉ nodes → links'.next a = links.next a ∧ links'.prev a = links.prev a

omit [DecidableEq N] in
/-- Writes to link words of nodes outside a list leave it as it is. -/
theorem Linked.frame {links' : Links N} {touched : List N} (h : Linked links l nodes)
    (hframe : FrameOutside links links' touched)
    (hdisjoint : ∀ a ∈ l.lhHead :: (nodes ++ [l.lhTail]), a ∉ touched) : Linked links' l nodes :=
  h.congr (fun a ha ↦ (hframe a (hdisjoint a ha)).1) (fun a ha ↦ (hframe a (hdisjoint a ha)).2)

theorem frameOutside_join {p q : N} {touched : List N} (hp : p ∈ touched) (hq : q ∈ touched) :
    FrameOutside links (links.join p q) touched := by
  intro a ha
  have hap : a ≠ p := fun heq ↦ ha (heq ▸ hp)
  have haq : a ≠ q := fun heq ↦ ha (heq ▸ hq)
  rw [Links.join_next, Links.join_prev, if_neg hap, if_neg haq]
  exact ⟨rfl, rfl⟩

omit [DecidableEq N] in
theorem FrameOutside.trans {first second third : Links N} {touched : List N}
    (h : FrameOutside first second touched) (h' : FrameOutside second third touched) :
    FrameOutside first third touched := by
  intro a ha
  exact ⟨(h' a ha).1.trans (h a ha).1, (h' a ha).2.trans (h a ha).2⟩

/-- `REMOVE` cuts a linked node out. Its own link words keep pointing at its old neighbours. -/
theorem remove_linked (h : Linked links l (before ++ n :: after)) :
    ∃ links', remove links n = some links' ∧ Linked links' l (before ++ after) ∧
      FrameOutside links links' (l.lhHead :: (before ++ after ++ [l.lhTail])) ∧
      remove links' n = some links' := by
  obtain ⟨p, q, hp, hq, hpmem, hqmem, hlist⟩ := h.remove
  have hptouched : p ∈ l.lhHead :: (before ++ after ++ [l.lhTail]) := by
    simp only [List.mem_cons, List.mem_append] at hpmem ⊢
    tauto
  have hqtouched : q ∈ l.lhHead :: (before ++ after ++ [l.lhTail]) := by
    simp only [List.mem_cons, List.mem_append] at hqmem ⊢
    tauto
  have hnodup := h.nodup
  rw [show l.lhHead :: (before ++ n :: after ++ [l.lhTail]) =
    (l.lhHead :: before) ++ n :: (after ++ [l.lhTail]) by simp, List.nodup_middle,
    List.nodup_cons] at hnodup
  have hnp : n ≠ p := fun heq ↦ hnodup.1 (heq ▸ List.mem_append.mpr (Or.inl hpmem))
  have hnq : n ≠ q := fun heq ↦ hnodup.1 (heq ▸ List.mem_append.mpr (Or.inr hqmem))
  refine ⟨links.join p q, ?_, hlist, frameOutside_join hptouched hqtouched, ?_⟩
  · simp only [remove, hp, hq]
    rfl
  · have hnext : (links.join p q).next n = some q := by rw [Links.join_next, if_neg hnp, hq]
    have hprev : (links.join p q).prev n = some p := by rw [Links.join_prev, if_neg hnq, hp]
    simp only [remove, hnext, hprev]
    exact congrArg some (Links.join_of_adj (Links.join_adj p q))

theorem addHead_linked (h : Linked links l nodes) (hn : n ∉ l.lhHead :: (nodes ++ [l.lhTail])) :
    ∃ links', addHead links l n = some links' ∧ Linked links' l (n :: nodes) ∧
      FrameOutside links links' (l.lhHead :: (n :: nodes ++ [l.lhTail])) := by
  obtain ⟨q, hq, hqmem, hlist⟩ := h.insertHead hn
  have hnq : n ≠ q := fun heq ↦ hn (heq ▸ List.mem_cons_of_mem _ hqmem)
  have hnh : n ≠ l.lhHead := fun heq ↦ hn (heq ▸ List.mem_cons_self)
  refine ⟨(links.join n q).join l.lhHead n, ?_, hlist, ?_⟩
  · simp only [addHead, hq, Links.join, Links.setNext, Links.setPrev]
    rw [Function.update_comm hnq]
  · have hqtouched : q ∈ l.lhHead :: (n :: nodes ++ [l.lhTail]) := by
      simp only [List.mem_cons, List.mem_append] at hqmem ⊢
      tauto
    exact (frameOutside_join (by simp) hqtouched).trans (frameOutside_join (by simp) (by simp))

theorem addTail_linked (h : Linked links l nodes) (hn : n ∉ l.lhHead :: (nodes ++ [l.lhTail])) :
    ∃ links', addTail links l n = some links' ∧ Linked links' l (nodes ++ [n]) ∧
      FrameOutside links links' (l.lhHead :: (nodes ++ [n] ++ [l.lhTail])) := by
  obtain ⟨p, hp, hpmem, hlist⟩ := h.insertTail hn
  have hnt : l.lhTail ≠ n := fun heq ↦ hn (heq ▸ by simp)
  have hnp : n ≠ p := by
    rintro rfl
    exact hn (by simp only [List.mem_cons, List.mem_append] at hpmem ⊢; tauto)
  refine ⟨(links.join n l.lhTail).join p n, ?_, hlist, ?_⟩
  · simp only [addTail, hp, Links.join, Links.setNext, Links.setPrev,
       Function.update_of_ne hnt]
    rw [Function.update_comm hnt]
  · have hptouched : p ∈ l.lhHead :: (nodes ++ [n] ++ [l.lhTail]) := by
      simp only [List.mem_cons, List.mem_append] at hpmem ⊢
      tauto
    exact (frameOutside_join (by simp) (by simp)).trans (frameOutside_join hptouched (by simp))

/-- `REMTAIL` on an empty list finds nothing. -/
theorem remTail_nil (h : Linked links l []) : remTail links l = some (links, none) := by
  have htail := h.tail_prev
  simp only [List.getLastD_nil] at htail
  simp [remTail, getTail, htail]

/-- `REMTAIL` removes the last node. A second `REMOVE` of that node changes nothing. -/
theorem remTail_concat (h : Linked links l (nodes ++ [n])) :
    ∃ links', remTail links l = some (links', some n) ∧ Linked links' l nodes ∧
      FrameOutside links links' (l.lhHead :: (nodes ++ [l.lhTail])) ∧
      remove links' n = some links' := by
  obtain ⟨links', hremove, hlinked, hframe, hagain⟩ := remove_linked h
  have htail := h.tail_prev
  rw [List.getLastD_concat] at htail
  have hnodup := h.nodup
  have hne : n ≠ l.lhHead := by
    rintro rfl
    simp at hnodup
  refine ⟨links', ?_, by simpa using hlinked, by simpa using hframe, hagain⟩
  simp [remTail, getTail, htail, hne, hremove]

theorem newList_linked (hne : l.lhHead ≠ l.lhTail) : Linked (newList links l) l [] := by
  refine Links.IsList.nil ?_ ?_ ?_ hne
  · simp [Links.Adj, newList, hne]
  · simp [newList, hne]
  · simp [newList]

omit [DecidableEq N] in
theorem forEachNode_linked (h : Linked links l nodes) {fuel : ℕ} (hfuel : nodes.length + 2 ≤ fuel) :
    forEachNode fuel links l = some (l.lhHead :: nodes) :=
  h.walk hfuel

end Emu68.Exec
