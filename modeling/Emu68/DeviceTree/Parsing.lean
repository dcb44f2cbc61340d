import Mathlib.Data.List.Basic
import Mathlib.Algebra.Order.Ring.Nat
import Mathlib.Tactic.Common

/-!
The parser of flattened device trees (`devicetree.c`: `dt_build_node` and `dt_parse`). Pointers to
nodes and properties are indices in the order of their allocation, pointers into the blob are byte
offsets, and there is always enough heap.
-/

set_option autoImplicit false
set_option relaxedAutoImplicit false

namespace Emu68.DeviceTree

/-! ### The blob and the heap -/

abbrev Blob := ℕ → BitVec 8

/-- `BE32` of the word at `p`. -/
def be32 (blob : Blob) (p : ℕ) : ℕ :=
  (((blob p).toNat * 256 + (blob (p + 1)).toNat) * 256 + (blob (p + 2)).toNat) * 256 +
    (blob (p + 3)).toNat

def fdtBeginNode : ℕ := 1
def fdtEndNode : ℕ := 2
def fdtProp : ℕ := 3
def fdtNop : ℕ := 4
def fdtEnd : ℕ := 9
def fdtMagic : ℕ := 0xd00dfeed

structure OfProperty where
  opNext : Option ℕ
  opName : ℕ
  opValue : Option ℕ
  opLength : ℕ
deriving DecidableEq

structure OfNode where
  onNext : Option ℕ
  onParent : Option ℕ
  onName : ℕ
  onChildren : Option ℕ
  onProperties : Option ℕ
deriving DecidableEq

structure Heap where
  nodes : List OfNode
  properties : List OfProperty
deriving DecidableEq

/-! ### The parser -/

def strlen (blob : Blob) : ℕ → ℕ → Option ℕ
  | 0, _ => none
  | fuel + 1, p => if blob p = 0 then some 0 else (strlen blob fuel (p + 1)).map (· + 1)

/-- What `dt_build_node` does before its loop. Without a parent `on_next` keeps what the allocated
memory held. -/
def newNode (uninit : Option ℕ) (blob : Blob) (fuel : ℕ) (h : Heap) (parent : Option ℕ) (data : ℕ) :
    Option (Heap × ℕ × ℕ) :=
  let e := h.nodes.length
  let next := match parent with
    | none => uninit
    | some p => h.nodes[p]?.bind OfNode.onChildren
  let nodes := match parent with
    | none => h.nodes
    | some p => h.nodes.modify p fun n ↦ { n with onChildren := some e }
  (strlen blob fuel data).map fun length ↦
    ({ h with nodes := nodes ++ [⟨next, parent, data, none, none⟩] }, e,
      data + 4 * ((length + 4) / 4))

/-- The property whose token is before `data`. -/
def newProperty (blob : Blob) (strings : ℕ) (h : Heap) (e data : ℕ) : Heap × ℕ :=
  let length := be32 blob data
  let p : OfProperty := {
    opNext := h.nodes[e]?.bind OfNode.onProperties
    opName := strings + be32 blob (data + 4)
    opValue := if length ≠ 0 then some (data + 8) else none
    opLength := length }
  (⟨h.nodes.modify e fun n ↦ { n with onProperties := some h.properties.length },
    h.properties ++ [p]⟩, data + 8 + 4 * ((length + 3) % 2 ^ 32 / 4))

/-- The loop of `dt_build_node` for the node `e`. The call for a child is its start and this loop
again. -/
def nodeLoop (uninit : Option ℕ) (blob : Blob) (strings : ℕ) :
    ℕ → Heap → ℕ → ℕ → Option (Heap × ℕ)
  | 0, _, _, _ => none
  | fuel + 1, h, e, data =>
    let token := be32 blob data
    let data := data + 4
    if token = fdtBeginNode then
      (newNode uninit blob fuel h (some e) data).bind fun (h, child, data) ↦
        (nodeLoop uninit blob strings fuel h child data).bind fun (h, data) ↦
          nodeLoop uninit blob strings fuel h e data
    else if token = fdtProp then
      let (h, data) := newProperty blob strings h e data
      nodeLoop uninit blob strings fuel h e data
    else if token = fdtNop then nodeLoop uninit blob strings fuel h e data
    else if token = fdtEndNode then some (h, data)
    else nodeLoop uninit blob strings fuel h e data

def dtBuildNode (uninit : Option ℕ) (blob : Blob) (strings fuel : ℕ) (h : Heap)
    (parent : Option ℕ) (data : ℕ) : Option (Heap × ℕ × ℕ) :=
  (newNode uninit blob fuel h parent data).bind fun (h, e, data) ↦
    (nodeLoop uninit blob strings fuel h e data).map fun (h, data) ↦ (h, e, data)

/-- The reserved entries are gone through up to the one that is all zero. -/
def skipReserved (blob : Blob) : ℕ → ℕ → Option ℕ
  | 0, _ => none
  | fuel + 1, p =>
    if ∃ i < 16, blob (p + i) ≠ 0 then skipReserved blob fuel (p + 16) else some p

/-- The loop of `dt_parse`. -/
def parseLoop (uninit : Option ℕ) (blob : Blob) (strings : ℕ) :
    ℕ → Heap → Option ℕ → ℕ → Option (Heap × Option ℕ × ℕ)
  | 0, _, _, _ => none
  | fuel + 1, h, root, data =>
    let token := be32 blob data
    let data := data + 4
    if token = fdtBeginNode then
      (dtBuildNode uninit blob strings fuel h none data).bind fun (h, e, data) ↦
        parseLoop uninit blob strings fuel h (some e) data
    else if token = fdtEnd then some (h, root, data)
    else parseLoop uninit blob strings fuel h root data

/-- `DuffCopy` into memory that held `fresh`. -/
def duffCopy (fresh source : Blob) (words : ℕ) : Blob := fun i ↦
  if i < 4 * words then source i else fresh i

/-- The heap, `root` and the cursor after `dt_parse`, with the blob the pointers refer to. -/
def dtParse (uninit : Option ℕ) (fresh dt : Blob) (fuel : ℕ) (h : Heap) (root : Option ℕ)
    (data : ℕ) : Option (Blob × Heap × Option ℕ × ℕ) :=
  if be32 dt 0 = fdtMagic then
    let blob := duffCopy fresh dt ((be32 dt 4 + 3) % 2 ^ 32 / 4)
    let reserved := be32 blob 16
    (if reserved ≠ 0 then skipReserved blob fuel reserved else some reserved).bind fun _ ↦
      (parseLoop uninit blob (be32 blob 12) fuel h root (be32 blob 8)).map fun result ↦
        (blob, result)
  else some (dt, h, root, data)

/-! ### Flattened trees -/

/-- What is in a node, up to its end: tokens without a meaning, properties and child nodes. -/
inductive Items where
  | nil
  | nop (rest : Items)
  | prop (name value : List (BitVec 8)) (rest : Items)
  | node (name : List (BitVec 8)) (body rest : Items)
deriving DecidableEq

def Bytes (blob : Blob) : List (BitVec 8) → ℕ → Prop
  | [], _ => True
  | c :: cs, p => blob p = c ∧ Bytes blob cs (p + 1)

/-- A string with its end. -/
def CString (blob : Blob) : List (BitVec 8) → ℕ → Prop
  | [], p => blob p = 0
  | c :: cs, p => blob p = c ∧ c ≠ 0 ∧ CString blob cs (p + 1)

/-- Bytes that are padded to a multiple of four. -/
def padded (n : ℕ) : ℕ := (n + 3) / 4 * 4

/-- The tokens of `items` from `data` on, with the `FDT_END_NODE` that ends before `stop`. -/
def Tokens (blob : Blob) (strings : ℕ) : Items → ℕ → ℕ → Prop
  | .nil, data, stop => be32 blob data = fdtEndNode ∧ stop = data + 4
  | .nop rest, data, stop => be32 blob data = fdtNop ∧ Tokens blob strings rest (data + 4) stop
  | .prop name value rest, data, stop =>
    be32 blob data = fdtProp ∧ be32 blob (data + 4) = value.length ∧
      CString blob name (strings + be32 blob (data + 8)) ∧ Bytes blob value (data + 12) ∧
      Tokens blob strings rest (data + 12 + padded value.length) stop
  | .node name body rest, data, stop =>
    be32 blob data = fdtBeginNode ∧ CString blob name (data + 4) ∧
      ∃ next, Tokens blob strings body (data + 4 + padded (name.length + 1)) next ∧
        Tokens blob strings rest next stop

/-- A number of `FDT_NOP`. -/
def Nops (blob : Blob) (data n : ℕ) : Prop := ∀ i < n, be32 blob (data + 4 * i) = fdtNop

/-- A flattened device tree. What is said of its bytes depends on those within `totalsize` only. -/
structure Valid (dt : Blob) (name : List (BitVec 8)) (items : Items) : Prop where
  magic : be32 dt 0 = fdtMagic
  content : ∀ blob : Blob, (∀ i < be32 dt 4, blob i = dt i) →
    (be32 blob 16 ≠ 0 → ∃ n, ∀ i < 16, blob (be32 blob 16 + 16 * n + i) = 0) ∧
    ∃ before after next, Nops blob (be32 blob 8) before ∧
      be32 blob (be32 blob 8 + 4 * before) = fdtBeginNode ∧
      CString blob name (be32 blob 8 + 4 * before + 4) ∧
      Tokens blob (be32 blob 12) items
        (be32 blob 8 + 4 * before + 4 + padded (name.length + 1)) next ∧
      next ≤ be32 dt 4 ∧ Nops blob next after ∧ be32 blob (next + 4 * after) = fdtEnd

/-! ### The tree in the heap -/

structure Heads where
  children : Option ℕ
  properties : Option ℕ
deriving DecidableEq

/-- How much of the heap is used. -/
structure Extent where
  nodes : ℕ
  properties : ℕ
deriving DecidableEq

def OfNode.heads (n : OfNode) : Heads := ⟨n.onChildren, n.onProperties⟩

def Heap.extent (h : Heap) : Extent := ⟨h.nodes.length, h.properties.length⟩

/-- The property has this name, length and value. -/
structure OfProperty.Shows (p : OfProperty) (blob : Blob) (name value : List (BitVec 8)) : Prop where
  name : CString blob name p.opName
  length : p.opLength = value.length
  empty : value = [] → p.opValue = none
  value : value ≠ [] → ∃ q, p.opValue = some q ∧ Bytes blob value q

/-- The items of the node `e` are put in front of its two lists, one after the other. They are
exactly what is in the heap from `lo` to `hi`, in the order of the blob. -/
def Built (blob : Blob) (h : Heap) : Items → ℕ → Heads → Heads → Extent → Extent → Prop
  | .nil, _, before, after, lo, hi => after = before ∧ hi = lo
  | .nop rest, e, before, after, lo, hi => Built blob h rest e before after lo hi
  | .prop name value rest, e, before, after, lo, hi =>
    (∃ p, h.properties[lo.properties]? = some p ∧ p.opNext = before.properties ∧
      p.Shows blob name value) ∧
    Built blob h rest e { before with properties := some lo.properties } after
      { lo with properties := lo.properties + 1 } hi
  | .node name body rest, e, before, after, lo, hi =>
    ∃ n mid, h.nodes[lo.nodes]? = some n ∧ n.onNext = before.children ∧ n.onParent = some e ∧
      CString blob name n.onName ∧
      Built blob h body lo.nodes ⟨none, none⟩ n.heads { lo with nodes := lo.nodes + 1 } mid ∧
      Built blob h rest e { before with children := some lo.nodes } after mid hi

variable {uninit : Option ℕ} {blob : Blob} {strings data stop e : ℕ} {h h' h'' : Heap}
  {name value : List (BitVec 8)} {items : Items} {before after : Heads} {lo hi : Extent}

theorem be32_lt (blob : Blob) (p : ℕ) : be32 blob p < 2 ^ 32 := by
  have h₀ := (blob p).isLt
  have h₁ := (blob (p + 1)).isLt
  have h₂ := (blob (p + 2)).isLt
  have h₃ := (blob (p + 3)).isLt
  unfold be32
  omega

theorem Built.le (hbuilt : Built blob h items e before after lo hi) :
    lo.nodes ≤ hi.nodes ∧ lo.properties ≤ hi.properties := by
  induction items generalizing e before after lo hi with
  | nil =>
    obtain ⟨-, rfl⟩ := hbuilt
    exact ⟨le_rfl, le_rfl⟩
  | nop rest ih => exact ih hbuilt
  | prop name value rest ih =>
    have hrest := ih hbuilt.2
    exact ⟨hrest.1, Nat.le_of_succ_le hrest.2⟩
  | node name body rest ihbody ihrest =>
    obtain ⟨n, mid, -, -, -, -, hbody, hrest⟩ := hbuilt
    have hle := ihbody hbody
    have hle' := ihrest hrest
    exact ⟨(Nat.le_of_succ_le hle.1).trans hle'.1, hle.2.trans hle'.2⟩

/-- Only what is between `lo` and `hi` matters. -/
theorem Built.congr (hbuilt : Built blob h items e before after lo hi)
    (hnodes : ∀ i, lo.nodes ≤ i → i < hi.nodes → h'.nodes[i]? = h.nodes[i]?)
    (hproperties : ∀ i, lo.properties ≤ i → i < hi.properties →
      h'.properties[i]? = h.properties[i]?) :
    Built blob h' items e before after lo hi := by
  induction items generalizing e before after lo hi with
  | nil => exact hbuilt
  | nop rest ih => exact ih hbuilt hnodes hproperties
  | prop name value rest ih =>
    obtain ⟨⟨p, hp, hshows⟩, hrest⟩ := hbuilt
    have hle := hrest.le
    refine ⟨⟨p, ?_, hshows⟩, ih hrest hnodes fun i hlow ↦ hproperties i (Nat.le_of_succ_le hlow)⟩
    rw [hproperties _ le_rfl hle.2, hp]
  | node name body rest ihbody ihrest =>
    obtain ⟨n, mid, hn, hnext, hparent, hname, hbody, hrest⟩ := hbuilt
    have hle := hbody.le
    have hle' := hrest.le
    refine ⟨n, mid, ?_, hnext, hparent, hname, ihbody hbody (fun i hlow hhigh ↦ ?_)
      (fun i hlow hhigh ↦ ?_), ihrest hrest (fun i hlow hhigh ↦ ?_) (fun i hlow hhigh ↦ ?_)⟩
    · rw [hnodes _ le_rfl (hle.1.trans hle'.1), hn]
    · exact hnodes i (Nat.le_of_succ_le hlow) (hhigh.trans_le hle'.1)
    · exact hproperties i hlow (hhigh.trans_le hle'.2)
    · exact hnodes i ((Nat.le_of_succ_le hle.1).trans hlow) hhigh
    · exact hproperties i (hle.2.trans hlow) hhigh

/-! ### The start of a node -/

theorem strlen_eq {p : ℕ} (hname : CString blob name p) {fuel : ℕ} (hfuel : name.length < fuel) :
    strlen blob fuel p = some name.length := by
  induction name generalizing p fuel with
  | nil =>
    cases fuel with
    | zero => exact absurd hfuel (Nat.not_lt_zero _)
    | succ fuel => exact if_pos hname
  | cons c cs ih =>
    obtain ⟨hc, hne, hrest⟩ := hname
    cases fuel with
    | zero => exact absurd hfuel (Nat.not_lt_zero _)
    | succ fuel =>
      rw [strlen, if_neg (by rw [hc]; exact hne), ih hrest (Nat.lt_of_succ_lt_succ hfuel)]
      rfl

/-- The opened node `e` may get other lists; all else stays. -/
structure Keeps (h h' : Heap) (e : ℕ) : Prop where
  nodesLe : h.nodes.length ≤ h'.nodes.length
  propertiesLe : h.properties.length ≤ h'.properties.length
  nodes : ∀ i < h.nodes.length, i ≠ e → h'.nodes[i]? = h.nodes[i]?
  properties : ∀ i < h.properties.length, h'.properties[i]? = h.properties[i]?

theorem keeps_refl (h : Heap) (e : ℕ) : Keeps h h e :=
  ⟨le_rfl, le_rfl, fun _ _ _ ↦ rfl, fun _ _ ↦ rfl⟩

theorem Keeps.trans (h₁ : Keeps h h' e) (h₂ : Keeps h' h'' e) : Keeps h h'' e where
  nodesLe := h₁.nodesLe.trans h₂.nodesLe
  propertiesLe := h₁.propertiesLe.trans h₂.propertiesLe
  nodes := fun i hi hne ↦ (h₂.nodes i (hi.trans_le h₁.nodesLe) hne).trans (h₁.nodes i hi hne)
  properties := fun i hi ↦
    (h₂.properties i (hi.trans_le h₁.propertiesLe)).trans (h₁.properties i hi)

def OfNode.withHeads (n : OfNode) (heads : Heads) : OfNode :=
  { n with onChildren := heads.children, onProperties := heads.properties }

variable (uninit) in
/-- A child node is started. -/
theorem newNode_child {n : OfNode} (hn : h.nodes[e]? = some n) (hname : CString blob name data) :
    ∃ h', (∀ fuel > name.length, newNode uninit blob fuel h (some e) data =
        some (h', h.nodes.length, data + padded (name.length + 1))) ∧ Keeps h h' e ∧
      h'.nodes.length = h.nodes.length + 1 ∧ h'.properties.length = h.properties.length ∧
      h'.nodes[e]? = some (n.withHeads ⟨some h.nodes.length, n.onProperties⟩) ∧
      h'.nodes[h.nodes.length]? = some ⟨n.onChildren, some e, data, none, none⟩ := by
  have hlt : e < h.nodes.length := (List.getElem?_eq_some_iff.mp hn).1
  let opened := h.nodes.modify e fun n ↦ { n with onChildren := some h.nodes.length }
  have hlength : opened.length = h.nodes.length := List.length_modify ..
  refine ⟨{ h with nodes := opened ++ [⟨n.onChildren, some e, data, none, none⟩] },
    fun fuel hfuel ↦ ?_, ⟨?_, le_rfl, fun i hi hne ↦ ?_, fun _ _ ↦ rfl⟩, ?_, rfl, ?_, ?_⟩
  · have hpadded : 4 * ((name.length + 4) / 4) = padded (name.length + 1) := Nat.mul_comm _ _
    simp only [newNode, strlen_eq hname hfuel, hn, Option.map_some, Option.bind_some, hpadded]
    rfl
  · rw [List.length_append, hlength]
    exact Nat.le_add_right _ _
  · rw [List.getElem?_append_left (by rwa [hlength])]
    exact List.getElem?_modify_ne _ _ (Ne.symm hne)
  · rw [List.length_append, hlength, List.length_singleton]
  · rw [List.getElem?_append_left (by rwa [hlength])]
    refine (List.getElem?_modify_eq ..).trans ?_
    rw [hn]
    rfl
  · rw [← hlength, List.getElem?_concat_length]

/-! ### The content of a node -/

variable (data) in
/-- A property is put in front. -/
theorem newProperty_spec {n : OfNode} (hn : h.nodes[e]? = some n)
    (hlength : be32 blob data = value.length)
    (hname : CString blob name (strings + be32 blob (data + 4)))
    (hvalue : Bytes blob value (data + 8)) (hlt : value.length + 3 < 2 ^ 32) :
    ∃ h' p, newProperty blob strings h e data = (h', data + 8 + padded value.length) ∧
      Keeps h h' e ∧ h'.nodes.length = h.nodes.length ∧
      h'.properties.length = h.properties.length + 1 ∧
      h'.nodes[e]? = some (n.withHeads ⟨n.onChildren, some h.properties.length⟩) ∧
      h'.properties[h.properties.length]? = some p ∧ p.opNext = n.onProperties ∧
      p.Shows blob name value := by
  let p : OfProperty := ⟨h.nodes[e]?.bind OfNode.onProperties, strings + be32 blob (data + 4),
    if value.length ≠ 0 then some (data + 8) else none, value.length⟩
  refine ⟨⟨h.nodes.modify e fun n ↦ { n with onProperties := some h.properties.length },
    h.properties ++ [p]⟩, p, ?_,
    ⟨?_, ?_, fun i hi hne ↦ ?_, fun i hi ↦ ?_⟩, ?_, ?_, ?_, ?_, ?_,
    ⟨hname, rfl, fun hempty ↦ ?_, fun hne ↦ ?_⟩⟩
  · simp only [newProperty, hlength, Nat.mod_eq_of_lt hlt, Nat.mul_comm 4]
    rfl
  · exact (List.length_modify ..).ge
  · rw [List.length_append]
    exact Nat.le_add_right _ _
  · exact List.getElem?_modify_ne _ _ (Ne.symm hne)
  · exact List.getElem?_append_left hi
  · exact List.length_modify ..
  · exact List.length_append
  · refine (List.getElem?_modify_eq ..).trans ?_
    rw [hn]
    rfl
  · exact List.getElem?_concat_length
  · show h.nodes[e]?.bind OfNode.onProperties = _
    rw [hn]
    rfl
  · show (if value.length ≠ 0 then some (data + 8) else none) = none
    rw [hempty]
    rfl
  · refine ⟨data + 8, ?_, hvalue⟩
    exact if_pos fun hzero ↦ hne (List.length_eq_zero_iff.mp hzero)

theorem Tokens.lt (htokens : Tokens blob strings items data stop) : data < stop := by
  induction items generalizing data stop with
  | nil =>
    obtain ⟨-, rfl⟩ := htokens
    omega
  | nop rest ih =>
    have hrest := ih htokens.2
    omega
  | prop name value rest ih =>
    have hrest := ih htokens.2.2.2.2
    omega
  | node name body rest ihbody ihrest =>
    obtain ⟨-, -, next, hbody, hrest⟩ := htokens
    have hbody := ihbody hbody
    have hrest := ihrest hrest
    omega

theorem exists_succ_of_lt {N fuel : ℕ} (hfuel : N + 1 ≤ fuel) : ∃ k, N ≤ k ∧ fuel = k + 1 :=
  ⟨fuel - 1, by omega, by omega⟩

variable (uninit) in
/-- The cursor ends behind the matching `FDT_END_NODE`, and the items are in the heap. -/
theorem nodeLoop_spec {n : OfNode} (htokens : Tokens blob strings items data stop)
    (hstop : stop < 2 ^ 32) (hn : h.nodes[e]? = some n) :
    ∃ N h' after, (∀ fuel ≥ N, nodeLoop uninit blob strings fuel h e data = some (h', stop)) ∧
      Keeps h h' e ∧ h'.nodes[e]? = some (n.withHeads after) ∧
      Built blob h' items e n.heads after h.extent h'.extent := by
  induction items generalizing h e data stop n with
  | nil =>
    obtain ⟨htoken, rfl⟩ := htokens
    refine ⟨1, h, n.heads, fun fuel hfuel ↦ ?_, keeps_refl h e, hn, rfl, rfl⟩
    obtain ⟨fuel, rfl⟩ := Nat.exists_eq_add_of_le' hfuel
    simp [nodeLoop, htoken, fdtEndNode, fdtBeginNode, fdtProp, fdtNop]
  | nop rest ih =>
    obtain ⟨htoken, hrest⟩ := htokens
    obtain ⟨N, h', after, hrun, hkeeps, hopened, hbuilt⟩ := ih hrest hstop hn
    refine ⟨N + 1, h', after, fun fuel hfuel ↦ ?_, hkeeps, hopened, hbuilt⟩
    obtain ⟨k, hk, rfl⟩ := exists_succ_of_lt hfuel
    rw [← hrun k hk]
    simp [nodeLoop, htoken, fdtBeginNode, fdtProp, fdtNop]
  | prop name value rest ih =>
    obtain ⟨htoken, hlength, hname, hvalue, hrest⟩ := htokens
    have hlt := hrest.lt
    have hpadded : value.length ≤ padded value.length := by
      unfold padded
      omega
    obtain ⟨h₁, p, hproperty, hkeeps₁, hnodes₁, hproperties₁, hopened₁, hp, hnext, hshows⟩ :=
      newProperty_spec (data + 4) hn hlength hname hvalue (by omega)
    obtain ⟨N, h', after, hrun, hkeeps, hopened, hbuilt⟩ := ih hrest hstop hopened₁
    refine ⟨N + 1, h', after, fun fuel hfuel ↦ ?_, hkeeps₁.trans hkeeps, hopened,
      ⟨p, ?_, hnext, hshows⟩, ?_⟩
    · obtain ⟨k, hk, rfl⟩ := exists_succ_of_lt hfuel
      rw [← hrun k hk]
      simp [nodeLoop, htoken, hproperty, fdtBeginNode, fdtProp]
    · exact (hkeeps.properties _ (by rw [hproperties₁]; exact Nat.lt_succ_self _)).trans hp
    · simpa [Heap.extent, hnodes₁, hproperties₁, OfNode.heads, OfNode.withHeads] using hbuilt
  | node name body rest ihbody ihrest =>
    obtain ⟨htoken, hname, next, hbody, hrest⟩ := htokens
    have hlt := hrest.lt
    have helt : e < h.nodes.length := (List.getElem?_eq_some_iff.mp hn).1
    obtain ⟨h₁, hstart, hkeeps₁, hnodes₁, hproperties₁, hopened₁, hchild₁⟩ :=
      newNode_child uninit hn hname
    obtain ⟨N₂, h₂, after₂, hrun₂, hkeeps₂, hchild₂, hbuilt₂⟩ :=
      ihbody hbody (hlt.trans hstop) hchild₁
    have hopened₂ := (hkeeps₂.nodes e (by omega) helt.ne).trans hopened₁
    obtain ⟨N₃, h₃, after₃, hrun₃, hkeeps₃, hopened₃, hbuilt₃⟩ := ihrest hrest hstop hopened₂
    have hchild₃ := (hkeeps₃.nodes h.nodes.length
      (by have := hkeeps₂.nodesLe; omega) helt.ne').trans hchild₂
    refine ⟨name.length + N₂ + N₃ + 2, h₃, after₃, fun fuel hfuel ↦ ?_, ⟨?_, ?_, fun i hi hne ↦ ?_,
      fun i hi ↦ ?_⟩, hopened₃, _, h₂.extent, hchild₃, rfl, rfl, hname, ?_, hbuilt₃⟩
    · obtain ⟨k, hk, rfl⟩ := exists_succ_of_lt hfuel
      rw [nodeLoop, htoken]
      simp only [if_true, hstart k (by omega), Option.bind_some, hrun₂ k (by omega),
        hrun₃ k (by omega)]
    · have := hkeeps₂.nodesLe
      have := hkeeps₃.nodesLe
      omega
    · have := hkeeps₂.propertiesLe
      have := hkeeps₃.propertiesLe
      omega
    · rw [hkeeps₃.nodes i (by have := hkeeps₂.nodesLe; omega) hne,
        hkeeps₂.nodes i (by omega) hi.ne, hkeeps₁.nodes i hi hne]
    · rw [hkeeps₃.properties i (by have := hkeeps₂.propertiesLe; omega),
        hkeeps₂.properties i (by omega), hkeeps₁.properties i hi]
    · -- what was built for the child stays while the rest of the parent is parsed
      have hbuilt : Built blob h₂ body h.nodes.length ⟨none, none⟩ after₂
          ⟨h.nodes.length + 1, h.properties.length⟩ h₂.extent := by
        simpa [Heap.extent, hnodes₁, hproperties₁, OfNode.heads] using hbuilt₂
      have habove : ∀ i, h.nodes.length + 1 ≤ i → i ≠ e := fun i hi ↦ by omega
      exact hbuilt.congr (fun i hlow hhigh ↦ hkeeps₃.nodes i hhigh (habove i hlow))
        fun i hlow hhigh ↦ hkeeps₃.properties i hhigh

/-- A node with all its items, at the indices from `lo` on. -/
def BuiltNode (blob : Blob) (h : Heap) (parent : Option ℕ) (name : List (BitVec 8)) (items : Items)
    (lo hi : Extent) : Prop :=
  ∃ n, h.nodes[lo.nodes]? = some n ∧ n.onParent = parent ∧ CString blob name n.onName ∧
    Built blob h items lo.nodes ⟨none, none⟩ n.heads { lo with nodes := lo.nodes + 1 } hi

variable (uninit) in
/-- A node is started in the list of its parent, or as the root. -/
theorem newNode_spec (hname : CString blob name data) (parent : Option ℕ)
    (hparent : ∀ p ∈ parent, p < h.nodes.length) :
    ∃ h' next, (∀ fuel > name.length, newNode uninit blob fuel h parent data =
        some (h', h.nodes.length, data + padded (name.length + 1))) ∧
      h'.nodes.length = h.nodes.length + 1 ∧ h'.properties = h.properties ∧
      (∀ i < h.nodes.length, parent ≠ some i → h'.nodes[i]? = h.nodes[i]?) ∧
      h'.nodes[h.nodes.length]? = some ⟨next, parent, data, none, none⟩ := by
  cases parent with
  | none =>
    refine ⟨{ h with nodes := h.nodes ++ [⟨uninit, none, data, none, none⟩] }, uninit,
      fun fuel hfuel ↦ ?_, List.length_append, rfl, fun i hi _ ↦ List.getElem?_append_left hi,
      List.getElem?_concat_length⟩
    simp only [newNode, strlen_eq hname hfuel, Option.map_some, padded, Nat.mul_comm 4]
  | some p =>
    have hn := List.getElem?_eq_getElem (hparent p rfl)
    obtain ⟨h', hstart, hkeeps, hlength, -, -, hchild⟩ := newNode_child uninit hn hname
    refine ⟨h', _, hstart, hlength, ?_, fun i hi hne ↦ hkeeps.nodes i hi (Ne.symm ?_), hchild⟩
    · have heq := hstart (name.length + 1) (Nat.lt_succ_self _)
      simp only [newNode, strlen_eq hname (Nat.lt_succ_self _), Option.map_some, Option.some.injEq,
        Prod.mk.injEq] at heq
      rw [← heq.1]
    · exact fun heq ↦ hne (congrArg some heq)

variable (uninit) in
/-- A call for a node that is in the list of its parent, or for the root. -/
theorem dtBuildNode_spec (hname : CString blob name data)
    (htokens : Tokens blob strings items (data + padded (name.length + 1)) stop)
    (hstop : stop < 2 ^ 32) (parent : Option ℕ) (hparent : ∀ p ∈ parent, p < h.nodes.length) :
    ∃ N h', (∀ fuel ≥ N, dtBuildNode uninit blob strings fuel h parent data =
        some (h', h.nodes.length, stop)) ∧
      (∀ i < h.nodes.length, parent ≠ some i → h'.nodes[i]? = h.nodes[i]?) ∧
      BuiltNode blob h' parent name items h.extent h'.extent := by
  obtain ⟨h₁, next, hstart, hlength, hproperties, hothers, hn⟩ :=
    newNode_spec uninit hname parent hparent
  obtain ⟨N, h', after, hrun, hkeeps, hn', hbuilt⟩ :=
    nodeLoop_spec uninit htokens hstop hn
  refine ⟨name.length + N + 1, h', fun fuel hfuel ↦ ?_, fun i hi hne ↦ ?_, _, hn', rfl, hname, ?_⟩
  · simp only [dtBuildNode, hstart fuel (by omega), Option.bind_some, hrun fuel (by omega),
      Option.map_some]
  · rw [hkeeps.nodes i (by omega) hi.ne, hothers i hi hne]
  · simpa [Heap.extent, hlength, hproperties, OfNode.heads, OfNode.withHeads] using hbuilt

/-! ### The whole blob -/

theorem parseLoop_nops {root : Option ℕ} (fuel n : ℕ) (hnops : Nops blob data n) :
    parseLoop uninit blob strings (fuel + n) h root data =
      parseLoop uninit blob strings fuel h root (data + 4 * n) := by
  induction n generalizing data with
  | zero => rfl
  | succ n ih =>
    have htoken : be32 blob data = fdtNop := hnops 0 (Nat.succ_pos n)
    have hrest : Nops blob (data + 4) n := fun i hi ↦ by
      have hnext := hnops (i + 1) (Nat.succ_lt_succ hi)
      rwa [Nat.mul_add, Nat.add_comm (4 * i), ← Nat.add_assoc] at hnext
    rw [Nat.mul_add, Nat.add_comm (4 * n), ← Nat.add_assoc data, ← ih hrest]
    simp [parseLoop, htoken, fdtBeginNode, fdtNop, fdtEnd]

theorem skipReserved_terminates {p n : ℕ} (hzero : ∀ i < 16, blob (p + 16 * n + i) = 0) :
    ∃ N, ∀ fuel ≥ N, ∃ q, skipReserved blob fuel p = some q := by
  induction n generalizing p with
  | zero =>
    refine ⟨1, fun fuel hfuel ↦ ⟨p, ?_⟩⟩
    obtain ⟨k, -, rfl⟩ := exists_succ_of_lt hfuel
    rw [skipReserved, if_neg]
    rintro ⟨i, hi, hne⟩
    exact hne (hzero i hi)
  | succ n ih =>
    obtain ⟨N, hrun⟩ := ih (p := p + 16) fun i hi ↦ by
      rw [show p + 16 + 16 * n + i = p + 16 * (n + 1) + i by omega]
      exact hzero i hi
    refine ⟨N + 1, fun fuel hfuel ↦ ?_⟩
    obtain ⟨k, hk, rfl⟩ := exists_succ_of_lt hfuel
    rw [skipReserved]
    split_ifs
    · exact hrun k hk
    · exact ⟨p, rfl⟩

theorem duffCopy_eq (fresh dt : Blob) {total i : ℕ} (htotal : total + 3 < 2 ^ 32) (hi : i < total) :
    duffCopy fresh dt ((total + 3) % 2 ^ 32 / 4) i = dt i :=
  if_pos (by omega)

/-- A valid blob is parsed: every call for a node leaves the cursor behind the matching
`FDT_END_NODE`, and the tree is in the heap as it is in the blob. -/
theorem dtParse_builds (uninit : Option ℕ) (fresh : Blob) (h : Heap) (root : Option ℕ) (data : ℕ)
    {dt : Blob} (hvalid : Valid dt name items) (hheap : be32 dt 4 + 3 < 2 ^ 32) :
    (∃ N blob h' data', (∀ fuel ≥ N, dtParse uninit fresh dt fuel h root data =
        some (blob, h', some h.nodes.length, data')) ∧
      (∀ i < be32 dt 4, blob i = dt i) ∧
      (∀ i < h.nodes.length, h'.nodes[i]? = h.nodes[i]?) ∧
      BuiltNode blob h' none name items h.extent h'.extent) ∧
    ∀ (blob : Blob) (strings : ℕ) (name : List (BitVec 8)) (items : Items) (h : Heap)
      (parent : Option ℕ) (data stop : ℕ), CString blob name data →
      Tokens blob strings items (data + padded (name.length + 1)) stop → stop < 2 ^ 32 →
      (∀ p ∈ parent, p < h.nodes.length) →
      ∃ N h', (∀ fuel ≥ N, dtBuildNode uninit blob strings fuel h parent data =
          some (h', h.nodes.length, stop)) ∧
        BuiltNode blob h' parent name items h.extent h'.extent := by
  refine ⟨?_, fun blob strings name items h parent data stop hname htokens hstop hparent ↦ ?_⟩
  · let blob := duffCopy fresh dt ((be32 dt 4 + 3) % 2 ^ 32 / 4)
    have hcopy : ∀ i < be32 dt 4, blob i = dt i := fun i hi ↦ duffCopy_eq fresh dt hheap hi
    obtain ⟨hreserved, before, after, next, hnops, hbegin, hname, htokens, hnext, hnops', hend⟩ :=
      hvalid.content blob hcopy
    obtain ⟨N, h', hbuild, hothers, hbuilt⟩ := dtBuildNode_spec uninit (h := h) hname
      htokens (hnext.trans_lt (be32_lt dt 4)) none (fun p hp ↦ by cases hp)
    have hskip : ∃ M, ∀ fuel ≥ M, ∃ q, (if be32 blob 16 ≠ 0 then
        skipReserved blob fuel (be32 blob 16) else some (be32 blob 16)) = some q := by
      split_ifs with hzero
      · obtain ⟨n, hn⟩ := hreserved hzero
        exact skipReserved_terminates hn
      · exact ⟨0, fun _ _ ↦ ⟨_, rfl⟩⟩
    obtain ⟨M, hskip⟩ := hskip
    refine ⟨M + N + before + after + 2, blob, h', next + 4 * after + 4, fun fuel hfuel ↦ ?_, hcopy,
      fun i hi ↦ hothers i hi (fun hnone ↦ by cases hnone), hbuilt⟩
    obtain ⟨q, hq⟩ := hskip fuel (by omega)
    obtain ⟨k, hk, rfl⟩ : ∃ k, M + N + after + 1 ≤ k ∧ fuel = k + 1 + before :=
      ⟨fuel - 1 - before, by omega, by omega⟩
    obtain ⟨l, rfl⟩ : ∃ l, k = l + 1 + after := ⟨k - 1 - after, by omega⟩
    have hloop : parseLoop uninit blob (be32 blob 12) (l + 1 + after + 1 + before) h root
        (be32 blob 8) = some (h', some h.nodes.length, next + 4 * after + 4) := by
      rw [parseLoop_nops _ _ hnops, parseLoop, hbegin]
      simp only [if_true, hbuild (l + 1 + after) (by omega), Option.bind_some]
      rw [parseLoop_nops _ _ hnops', parseLoop, hend]
      simp [fdtEnd, fdtBeginNode]
    unfold dtParse
    rw [if_pos hvalid.magic]
    show Option.bind (if be32 blob 16 ≠ 0 then _ else _) _ = _
    rw [hq, Option.bind_some, hloop, Option.map_some]
  · obtain ⟨N, h', hrun, -, hbuilt⟩ :=
      dtBuildNode_spec uninit hname htokens hstop parent hparent
    exact ⟨N, h', hrun, hbuilt⟩

/-! ### A blob with a property and a child -/

def smallWords : List (BitVec 32) :=
  [0xd00dfeed, 106, 56, 104, 40, 0, 0, 0, 0, 0, 0, 0, 0, 0, 1, 0, 3, 1, 0, 0x05000000, 4, 1,
    0x61000000, 2, 2, 9, 0x70000000]

def smallBlob : Blob := fun i ↦ ((smallWords.getD (i / 4) 0) >>> (24 - 8 * (i % 4))).setWidth 8

def smallItems : Items := .prop [0x70] [5] (.nop (.node [0x61] .nil .nil))

theorem be32_congr {dt : Blob} (total : ℕ) {p : ℕ} (hagree : ∀ i < total, blob i = dt i)
    (hp : p + 3 < total) : be32 blob p = be32 dt p := by
  unfold be32
  rw [hagree p (by omega), hagree (p + 1) (by omega), hagree (p + 2) (by omega), hagree _ hp]

theorem smallBlob_valid : Valid smallBlob [] smallItems where
  magic := by decide
  content := fun blob hagree ↦ by
    have hword : ∀ p x, p + 3 < 106 → be32 smallBlob p = x → be32 blob p = x := fun p x hp hx ↦
      (be32_congr 106 hagree hp).trans hx
    have hbyte : ∀ p x, p < 106 → smallBlob p = x → blob p = x := fun p x hp hx ↦
      (hagree p hp).trans hx
    have hstruct : be32 blob 8 = 56 := hword 8 _ (by decide) (by decide)
    have hstrings : be32 blob 12 = 104 := hword 12 _ (by decide) (by decide)
    have hreserved : be32 blob 16 = 40 := hword 16 _ (by decide) (by decide)
    rw [hstruct, hstrings, hreserved]
    refine ⟨fun _ ↦ ⟨0, fun i hi ↦ hbyte _ _ (by omega) ?_⟩, 0, 0, 100, fun i hi ↦ by omega,
      hword 56 _ (by decide) (by decide), hbyte 60 _ (by decide) (by decide), ?_, by decide,
      fun i hi ↦ by omega, hword 100 _ (by decide) (by decide)⟩
    · have hzero : ∀ i < 16, smallBlob (40 + 16 * 0 + i) = 0 := by decide
      exact hzero i hi
    · refine ⟨hword 64 _ (by decide) (by decide), hword 68 _ (by decide) (by decide), ?_,
        ⟨hbyte 76 _ (by decide) (by decide), trivial⟩, hword 80 _ (by decide) (by decide),
        hword 84 _ (by decide) (by decide), ⟨hbyte 88 _ (by decide) (by decide), by decide,
        hbyte 89 _ (by decide) (by decide)⟩, 96, ⟨hword 92 _ (by decide) (by decide), rfl⟩,
        hword 96 _ (by decide) (by decide), rfl⟩
      show CString blob [0x70] (104 + be32 blob 72)
      rw [hword 72 0 (by decide) (by decide)]
      exact ⟨hbyte 104 _ (by decide) (by decide), by decide, hbyte 105 _ (by decide) (by decide)⟩

/-- It is parsed into an empty heap. -/
theorem dtParse_builds_small : ∃ N blob h' data', ∀ fuel ≥ N,
    dtParse none (fun _ ↦ 0) smallBlob fuel ⟨[], []⟩ none 0 = some (blob, h', some 0, data') := by
  obtain ⟨⟨N, blob, h', data', hrun, -⟩, -⟩ :=
    dtParse_builds none (fun _ ↦ 0) ⟨[], []⟩ none 0 smallBlob_valid (by decide)
  exact ⟨N, blob, h', data', hrun⟩

end Emu68.DeviceTree
