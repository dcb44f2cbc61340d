import Emu68.DeviceTree.Parsing

/-!
Looking for nodes in a parsed device tree (`devicetree.c`: `dt_find_property`, `dt_find_by_phandle`,
`_dt_strcmp` and `dt_find_node`). The key of a look-up is the list of its characters before the
terminating zero.
-/

set_option autoImplicit false
set_option relaxedAutoImplicit false

namespace Emu68.DeviceTree

/-! ### Properties and phandles -/

/-- Whether `strcmp` of the string at `p` with the key is zero. -/
def strcmp (blob : Blob) : List (BitVec 8) → ℕ → Bool
  | [], p => blob p = 0
  | c :: cs, p => blob p = c && strcmp blob cs (p + 1)

/-- The loop of `dt_find_property` from the property `p` on. -/
def findPropertyLoop (blob : Blob) (h : Heap) (propname : List (BitVec 8)) :
    ℕ → Option ℕ → Option (Option OfProperty)
  | 0, _ => none
  | _ + 1, none => some none
  | fuel + 1, some i => h.properties[i]?.bind fun p ↦
    if strcmp blob propname p.opName then some (some p)
    else findPropertyLoop blob h propname fuel p.opNext

def dtFindProperty (blob : Blob) (h : Heap) (fuel node : ℕ) (propname : List (BitVec 8)) :
    Option (Option OfProperty) :=
  h.nodes[node]?.bind fun n ↦ findPropertyLoop blob h propname fuel n.onProperties

/-- "phandle" -/
def phandleName : List (BitVec 8) := [0x70, 0x68, 0x61, 0x6e, 0x64, 0x6c, 0x65]

/-- The test at the start of `dt_find_by_phandle`. A property without a value has no word to read. -/
def hasPhandle (blob : Blob) (h : Heap) (fuel phandle node : ℕ) : Option Bool :=
  (dtFindProperty blob h fuel node phandleName).bind fun
    | none => some false
    | some p => p.opValue.map fun v ↦ be32 blob v = phandle

/-- The loop of `dt_find_by_phandle` over the children from `c` on. The call for a child is the test
and the loop over its own children. -/
def findByPhandleLoop (blob : Blob) (h : Heap) (phandle : ℕ) : ℕ → Option ℕ → Option (Option ℕ)
  | 0, _ => none
  | _ + 1, none => some none
  | fuel + 1, some c =>
    (hasPhandle blob h fuel phandle c).bind fun found ↦
      if found then some (some c)
      else h.nodes[c]?.bind fun n ↦
        (findByPhandleLoop blob h phandle fuel n.onChildren).bind fun
          | some r => some (some r)
          | none => findByPhandleLoop blob h phandle fuel n.onNext

def dtFindByPhandle (blob : Blob) (h : Heap) (fuel phandle root : ℕ) : Option (Option ℕ) :=
  (hasPhandle blob h fuel phandle root).bind fun found ↦
    if found then some (some root)
    else h.nodes[root]?.bind fun n ↦ findByPhandleLoop blob h phandle fuel n.onChildren

/-! ### Paths -/

def slash : BitVec 8 := 0x2f

def atSign : BitVec 8 := 0x40

/-- The key `s1` ends where its list does. -/
def dtStrcmp (blob : Blob) : List (BitVec 8) → ℕ → ℤ
  | [], s2 => if blob s2 = 0 then 0 else if blob s2 = atSign then 0 else 0 - (blob s2).toNat
  | c :: s1, s2 =>
    if c = blob s2 then dtStrcmp blob s1 (s2 + 1) else c.toNat - (blob s2).toNat

/-- Up to `n` characters go to `ptrbuf`; the rest of the key is left. -/
def copyComponent : ℕ → List (BitVec 8) → List (BitVec 8) × List (BitVec 8)
  | 0, key => ([], key)
  | _ + 1, [] => ([], [])
  | n + 1, c :: key =>
    if c = slash then ([], c :: key)
    else (c :: (copyComponent n key).1, (copyComponent n key).2)

/-- The loop over the children, from `node` on. -/
def findChildLoop (blob : Blob) (h : Heap) (ptrbuf : List (BitVec 8)) :
    ℕ → Option ℕ → Option (Option ℕ)
  | 0, _ => none
  | _ + 1, none => some none
  | fuel + 1, some i => h.nodes[i]?.bind fun n ↦
    if dtStrcmp blob ptrbuf n.onName = 0 then some (some i)
    else findChildLoop blob h ptrbuf fuel n.onNext

/-- `while (*key)`. -/
def findNodeLoop (blob : Blob) (h : Heap) : ℕ → ℕ → List (BitVec 8) → Option (Option ℕ)
  | 0, _, _ => none
  | _ + 1, ret, [] => some (some ret)
  | fuel + 1, ret, _ :: key =>
    let (ptrbuf, key) := copyComponent 63 key
    h.nodes[ret]?.bind fun n ↦ (findChildLoop blob h ptrbuf fuel n.onChildren).bind fun
      | none => some none
      | some node => findNodeLoop blob h fuel node key

def dtFindNode (blob : Blob) (h : Heap) (root fuel : ℕ) (key : List (BitVec 8)) :
    Option (Option ℕ) :=
  if key = [slash] then some (some root)
  else if key.head? = some slash then findNodeLoop blob h fuel root key
  else some none

/-! ### What is looked for -/

/-- The name is the component or continues with an `@`. -/
def Matches (component name : List (BitVec 8)) : Prop :=
  name = component ∨ ∃ rest, name = component ++ atSign :: rest

/-- The first of the siblings whose name matches. -/
inductive FirstNamed (blob : Blob) (h : Heap) (component : List (BitVec 8)) : Option ℕ → ℕ → Prop
  | here {i : ℕ} {n : OfNode} {name : List (BitVec 8)} (hn : h.nodes[i]? = some n)
      (hname : CString blob name n.onName) (hmatches : Matches component name) :
      FirstNamed blob h component (some i) i
  | next {i j : ℕ} {n : OfNode} {name : List (BitVec 8)} (hn : h.nodes[i]? = some n)
      (hname : CString blob name n.onName) (hmatches : ¬ Matches component name)
      (hrest : FirstNamed blob h component n.onNext j) : FirstNamed blob h component (some i) j

/-- The node reached by going to the first matching child for each component. -/
def Reaches (blob : Blob) (h : Heap) : ℕ → List (List (BitVec 8)) → ℕ → Prop
  | e, [], j => e = j
  | e, component :: rest, j => ∃ n m, h.nodes[e]? = some n ∧
    FirstNamed blob h component n.onChildren m ∧ Reaches blob h m rest j

/-- The first property with the name. -/
inductive FirstProperty (blob : Blob) (h : Heap) (name : List (BitVec 8)) :
    Option ℕ → OfProperty → Prop
  | here {i : ℕ} {p : OfProperty} (hp : h.properties[i]? = some p)
      (hname : CString blob name p.opName) : FirstProperty blob h name (some i) p
  | next {i : ℕ} {p q : OfProperty} (hp : h.properties[i]? = some p)
      (hname : ¬ CString blob name p.opName) (hrest : FirstProperty blob h name p.opNext q) :
      FirstProperty blob h name (some i) q

/-- The phandle property of a node is this number. -/
def HasPhandle (blob : Blob) (h : Heap) (phandle node : ℕ) : Prop :=
  ∃ n p v, h.nodes[node]? = some n ∧ FirstProperty blob h phandleName n.onProperties p ∧
    p.opValue = some v ∧ be32 blob v = phandle

/-- The nodes of a list of siblings and all below them. -/
inductive InForest (h : Heap) : Option ℕ → ℕ → Prop
  | self (i : ℕ) : InForest h (some i) i
  | child {i j : ℕ} {n : OfNode} (hn : h.nodes[i]? = some n) (hin : InForest h n.onChildren j) :
      InForest h (some i) j
  | sibling {i j : ℕ} {n : OfNode} (hn : h.nodes[i]? = some n) (hin : InForest h n.onNext j) :
      InForest h (some i) j

def InTree (h : Heap) (root node : ℕ) : Prop :=
  node = root ∨ ∃ n, h.nodes[root]? = some n ∧ InForest h n.onChildren node

/-- A phandle is one word. -/
def Items.PhandleWords : Items → Prop
  | .nil => True
  | .nop rest => rest.PhandleWords
  | .prop name value rest => (name = phandleName → value.length = 4) ∧ rest.PhandleWords
  | .node _ body rest => body.PhandleWords ∧ rest.PhandleWords

/-- An absolute path. -/
def pathOf (components : List (List (BitVec 8))) : List (BitVec 8) :=
  if components = [] then [slash] else components.flatMap (slash :: ·)

/-- A component is not empty and has no separator in it. -/
structure IsComponent (c : List (BitVec 8)) : Prop where
  nonempty : c ≠ []
  slash : slash ∉ c
  zero : 0 ∉ c

/-- The look-up of a path ends with the node reached, or with none if there is none. -/
def LooksUp (blob : Blob) (h : Heap) (root : ℕ) (components : List (List (BitVec 8))) : Prop :=
  ∃ N, ∀ fuel ≥ N, ∃ r, dtFindNode blob h root fuel (pathOf components) = some r ∧
    ∀ j, r = some j ↔ Reaches blob h root components j

/-- So does the search for a phandle. -/
def FindsPhandle (blob : Blob) (h : Heap) (root phandle : ℕ) : Prop :=
  ∃ N, ∀ fuel ≥ N, ∃ r, dtFindByPhandle blob h fuel phandle root = some r ∧
    (∀ j, r = some j → InTree h root j ∧ HasPhandle blob h phandle j) ∧
    (r = none → ∀ j, InTree h root j → ¬ HasPhandle blob h phandle j)

/-- What the buffer makes of a component: 63 characters, the next one is lost, and the rest is taken
for another component. -/
def pieces (c : List (BitVec 8)) : List (List (BitVec 8)) :=
  if c.length ≤ 63 then [c] else c.take 63 :: pieces (c.drop 64)
termination_by c.length
decreasing_by rw [List.length_drop]; omega

variable {blob : Blob} {h : Heap} {e i j p root phandle : ℕ} {head : Option ℕ}
  {name name' c : List (BitVec 8)} {items : Items} {before after : Heads} {lo hi : Extent}
  {components : List (List (BitVec 8))}

/-! ### The lists of a parsed tree -/

inductive PropertyList (blob : Blob) (h : Heap) : Option ℕ → Prop
  | nil : PropertyList blob h none
  | cons {i : ℕ} {p : OfProperty} {name value : List (BitVec 8)} (hp : h.properties[i]? = some p)
      (hshows : p.Shows blob name value) (hword : name = phandleName → value.length = 4)
      (hnext : PropertyList blob h p.opNext) : PropertyList blob h (some i)

/-- A list of siblings whose parent is `e`, with all below them. -/
inductive Forest (blob : Blob) (h : Heap) : ℕ → Option ℕ → Prop
  | nil (e : ℕ) : Forest blob h e none
  | cons {e i : ℕ} {n : OfNode} {name : List (BitVec 8)} (hn : h.nodes[i]? = some n)
      (hparent : n.onParent = some e) (hname : CString blob name n.onName)
      (hproperties : PropertyList blob h n.onProperties) (hchildren : Forest blob h i n.onChildren)
      (hnext : Forest blob h e n.onNext) : Forest blob h e (some i)

theorem Built.forest (hbuilt : Built blob h items e before after lo hi)
    (hwords : items.PhandleWords) (hchildren : Forest blob h e before.children)
    (hproperties : PropertyList blob h before.properties) :
    Forest blob h e after.children ∧ PropertyList blob h after.properties := by
  induction items generalizing e before after lo hi with
  | nil =>
    obtain ⟨rfl, -⟩ := hbuilt
    exact ⟨hchildren, hproperties⟩
  | nop rest ih => exact ih hbuilt hwords hchildren hproperties
  | prop name value rest ih =>
    obtain ⟨⟨p, hp, hnext, hshows⟩, hrest⟩ := hbuilt
    exact ih hrest hwords.2 hchildren (.cons hp hshows hwords.1 (by rwa [hnext]))
  | node name body rest ihbody ihrest =>
    obtain ⟨n, mid, hn, hnext, hparent, hname, hbody, hrest⟩ := hbuilt
    obtain ⟨hbelow, hown⟩ := ihbody hbody hwords.1 (.nil _) .nil
    exact ihrest hrest hwords.2 (.cons hn hparent hname hown hbelow (by rwa [hnext])) hproperties

theorem CString.unique (h₁ : CString blob name p) (h₂ : CString blob name' p) : name = name' := by
  induction name generalizing name' p with
  | nil =>
    cases name' with
    | nil => rfl
    | cons c' cs' => exact absurd (h₂.1.symm.trans h₁) h₂.2.1
  | cons c cs ih =>
    cases name' with
    | nil => exact absurd (h₁.1.symm.trans h₂) h₁.2.1
    | cons c' cs' =>
      obtain ⟨hc, -, hrest⟩ := h₁
      obtain ⟨hc', -, hrest'⟩ := h₂
      rw [← hc, ← hc', ih hrest hrest']

/-! ### The search for a phandle -/

theorem strcmp_iff (hzero : 0 ∉ name) : strcmp blob name p = true ↔ CString blob name p := by
  induction name generalizing p with
  | nil => exact decide_eq_true_iff
  | cons c cs ih =>
    rw [List.mem_cons, not_or] at hzero
    obtain ⟨hc, hcs⟩ := hzero
    rw [strcmp, Bool.and_eq_true, decide_eq_true_iff, ih hcs, CString]
    exact ⟨fun hboth ↦ ⟨hboth.1, Ne.symm hc, hboth.2⟩, fun hall ↦ ⟨hall.1, hall.2.2⟩⟩

/-- More fuel than needed does not matter. -/
def Terminates {α : Type} (run : ℕ → Option α) (r : α) : Prop := ∃ N, ∀ fuel ≥ N, run fuel = some r

theorem findPropertyLoop_spec (hlist : PropertyList blob h head) (hzero : 0 ∉ name) :
    ∃ r, Terminates (findPropertyLoop blob h name · head) r ∧
      ∀ p, r = some p ↔ FirstProperty blob h name head p := by
  induction hlist with
  | nil =>
    refine ⟨none, ⟨1, fun fuel hfuel ↦ ?_⟩, fun p ↦ ⟨fun hp ↦ (by cases hp), fun hp ↦ (by cases hp)⟩⟩
    obtain ⟨k, -, rfl⟩ := exists_succ_of_lt hfuel
    rfl
  | @cons i p own value hp hshows hword hnext ih =>
    obtain ⟨r, ⟨N, hrun⟩, hr⟩ := ih
    by_cases hname : CString blob name p.opName
    · refine ⟨some p, ⟨1, fun fuel hfuel ↦ ?_⟩, fun q ↦ ⟨fun hq ↦ ?_, fun hq ↦ ?_⟩⟩
      · obtain ⟨k, -, rfl⟩ := exists_succ_of_lt hfuel
        simp only [findPropertyLoop, hp, Option.bind_some, (strcmp_iff hzero).mpr hname, if_true]
      · obtain rfl := Option.some.inj hq
        exact .here hp hname
      · cases hq with
        | here hp' => rw [← hp, hp']
        | next hp' hname' => exact absurd (by rwa [Option.some.inj (hp.symm.trans hp')] at hname) hname'
    · refine ⟨r, ⟨N + 1, fun fuel hfuel ↦ ?_⟩, fun q ↦ (hr q).trans ⟨fun hq ↦ ?_, fun hq ↦ ?_⟩⟩
      · obtain ⟨k, hk, rfl⟩ := exists_succ_of_lt hfuel
        simp only [findPropertyLoop, hp, Option.bind_some, if_neg (mt (strcmp_iff hzero).mp hname),
          hrun k hk]
      · exact .next hp hname hq
      · cases hq with
        | here hp' hname' => exact absurd (by rwa [Option.some.inj (hp'.symm.trans hp)] at hname') hname
        | next hp' _ hrest => rwa [← Option.some.inj (hp'.symm.trans hp)]

/-- A phandle has a value. -/
theorem FirstProperty.value {p : OfProperty} (hfirst : FirstProperty blob h phandleName head p)
    (hlist : PropertyList blob h head) : ∃ v, p.opValue = some v := by
  induction hfirst with
  | here hp hname =>
    cases hlist with
    | cons hp' hshows hword =>
      obtain rfl := Option.some.inj (hp.symm.trans hp')
      obtain ⟨v, hv, -⟩ := hshows.value fun hempty ↦ by
        have hlength := hword (hshows.name.unique hname)
        rw [hempty] at hlength
        cases hlength
      exact ⟨v, hv⟩
  | next hp _ _ ih =>
    cases hlist with
    | cons hp' _ _ hnext =>
      obtain rfl := Option.some.inj (hp.symm.trans hp')
      exact ih hnext

theorem hasPhandle_spec {n : OfNode} (hn : h.nodes[i]? = some n)
    (hlist : PropertyList blob h n.onProperties) (phandle : ℕ) :
    ∃ found, Terminates (hasPhandle blob h · phandle i) found ∧
      (found = true ↔ HasPhandle blob h phandle i) := by
  obtain ⟨r, ⟨N, hrun⟩, hr⟩ := findPropertyLoop_spec hlist (show 0 ∉ phandleName by decide)
  cases r with
  | none =>
    refine ⟨false, ⟨N, fun fuel hfuel ↦ ?_⟩, fun hfalse ↦ (by cases hfalse), fun hhas ↦ ?_⟩
    · simp only [hasPhandle, dtFindProperty, hn, Option.bind_some, hrun fuel hfuel]
    · obtain ⟨n', p, v, hn', hfirst, -⟩ := hhas
      obtain rfl := Option.some.inj (hn.symm.trans hn')
      cases (hr p).mpr hfirst
  | some p =>
    have hfirst := (hr p).mp rfl
    obtain ⟨v, hv⟩ := hfirst.value hlist
    refine ⟨be32 blob v = phandle, ⟨N, fun fuel hfuel ↦ ?_⟩, ?_⟩
    · simp only [hasPhandle, dtFindProperty, hn, Option.bind_some, hrun fuel hfuel, hv,
        Option.map_some]
    · rw [decide_eq_true_iff]
      refine ⟨fun heq ↦ ⟨n, p, v, hn, hfirst, hv, heq⟩, fun ⟨n', p', v', hn', hfirst', hv', heq⟩ ↦ ?_⟩
      obtain rfl := Option.some.inj (hn.symm.trans hn')
      obtain rfl := Option.some.inj ((hr p').mpr hfirst')
      rwa [Option.some.inj (hv.symm.trans hv')]

theorem findByPhandleLoop_spec (hforest : Forest blob h e head) (phandle : ℕ) :
    ∃ r, Terminates (findByPhandleLoop blob h phandle · head) r ∧
      (∀ j, r = some j → InForest h head j ∧ HasPhandle blob h phandle j) ∧
      (r = none → ∀ j, InForest h head j → ¬ HasPhandle blob h phandle j) := by
  induction hforest with
  | nil =>
    refine ⟨none, ⟨1, fun fuel hfuel ↦ ?_⟩, fun j hj ↦ (by cases hj), fun _ j hj ↦ (by cases hj)⟩
    obtain ⟨k, -, rfl⟩ := exists_succ_of_lt hfuel
    rfl
  | @cons e i n name hn hparent hname hproperties hchildren hnext ihchildren ihnext =>
    obtain ⟨found, ⟨N₀, hrun₀⟩, hfound⟩ := hasPhandle_spec hn hproperties phandle
    obtain ⟨r₁, ⟨N₁, hrun₁⟩, hsome₁, hnone₁⟩ := ihchildren
    obtain ⟨r₂, ⟨N₂, hrun₂⟩, hsome₂, hnone₂⟩ := ihnext
    cases found with
    | true =>
      refine ⟨some i, ⟨N₀ + 1, fun fuel hfuel ↦ ?_⟩, fun j hj ↦ ?_, fun hnone ↦ (by cases hnone)⟩
      · obtain ⟨k, hk, rfl⟩ := exists_succ_of_lt hfuel
        simp only [findByPhandleLoop, hrun₀ k hk, Option.bind_some, if_true]
      · obtain rfl := Option.some.inj hj
        exact ⟨.self i, hfound.mp rfl⟩
    | false =>
      have hnot : ¬ HasPhandle blob h phandle i := fun hhas ↦ by cases hfound.mpr hhas
      cases r₁ with
      | some j₁ =>
        refine ⟨some j₁, ⟨N₀ + N₁ + 1, fun fuel hfuel ↦ ?_⟩, fun j hj ↦ ?_, fun hnone ↦
          (by cases hnone)⟩
        · obtain ⟨k, hk, rfl⟩ := exists_succ_of_lt hfuel
          simp [findByPhandleLoop, hrun₀ k (by omega), hrun₁ k (by omega), hn]
        · exact ⟨.child hn (hsome₁ j hj).1, (hsome₁ j hj).2⟩
      | none =>
        refine ⟨r₂, ⟨N₀ + N₁ + N₂ + 1, fun fuel hfuel ↦ ?_⟩, fun j hj ↦ ?_, fun hnone j hj ↦ ?_⟩
        · obtain ⟨k, hk, rfl⟩ := exists_succ_of_lt hfuel
          simp [findByPhandleLoop, hrun₀ k (by omega), hrun₁ k (by omega), hrun₂ k (by omega), hn]
        · exact ⟨.sibling hn (hsome₂ j hj).1, (hsome₂ j hj).2⟩
        · cases hj with
          | self => exact hnot
          | child hn' hin =>
            obtain rfl := Option.some.inj (hn.symm.trans hn')
            exact hnone₁ rfl j hin
          | sibling hn' hin =>
            obtain rfl := Option.some.inj (hn.symm.trans hn')
            exact hnone₂ hnone j hin

theorem findsPhandle {n : OfNode} (hn : h.nodes[root]? = some n)
    (hproperties : PropertyList blob h n.onProperties) (hforest : Forest blob h root n.onChildren)
    (phandle : ℕ) : FindsPhandle blob h root phandle := by
  obtain ⟨found, ⟨N, hrun⟩, hfound⟩ := hasPhandle_spec hn hproperties phandle
  obtain ⟨r, ⟨M, hloop⟩, hsome, hnone⟩ := findByPhandleLoop_spec hforest phandle
  refine ⟨N + M, fun fuel hfuel ↦ ?_⟩
  cases found with
  | true =>
    refine ⟨some root, ?_, fun j hj ↦ ?_, fun hfalse ↦ (by cases hfalse)⟩
    · simp only [dtFindByPhandle, hrun fuel (by omega), Option.bind_some, if_true]
    · obtain rfl := Option.some.inj hj
      exact ⟨.inl rfl, hfound.mp rfl⟩
  | false =>
    refine ⟨r, ?_, fun j hj ↦ ⟨.inr ⟨n, hn, (hsome j hj).1⟩, (hsome j hj).2⟩, fun hr j hj ↦ ?_⟩
    · simp [dtFindByPhandle, hrun fuel (by omega), hn, hloop fuel (by omega)]
    · rcases hj with rfl | ⟨n', hn', hin⟩
      · exact fun hhas ↦ by cases hfound.mpr hhas
      · obtain rfl := Option.some.inj (hn.symm.trans hn')
        exact hnone hr j hin

/-! ### One component -/

theorem dtStrcmp_eq_zero (hname : CString blob name p) (hzero : 0 ∉ c) :
    dtStrcmp blob c p = 0 ↔ Matches c name := by
  induction c generalizing name p with
  | nil =>
    cases name with
    | nil =>
      have hend : blob p = 0 := hname
      exact ⟨fun _ ↦ .inl rfl, fun _ ↦ if_pos hend⟩
    | cons a as =>
      obtain ⟨ha, hne, -⟩ := hname
      rw [dtStrcmp, if_neg (by rwa [ha]), ha]
      constructor
      · intro heq
        split_ifs at heq with hat
        · exact .inr ⟨as, by rw [hat]; rfl⟩
        · have hpos : a.toNat ≠ 0 := fun h ↦ hne (BitVec.eq_of_toNat_eq h)
          omega
      · rintro (hfalse | ⟨rest, hrest⟩)
        · cases hfalse
        · rw [if_pos (List.cons.inj hrest).1]
  | cons x xs ih =>
    rw [List.mem_cons, not_or] at hzero
    obtain ⟨hx, hxs⟩ := hzero
    rw [dtStrcmp]
    cases name with
    | nil =>
      have hend : blob p = 0 := hname
      rw [hend, if_neg (Ne.symm hx)]
      constructor
      · intro heq
        have hpos : x.toNat ≠ 0 := fun h ↦ hx (BitVec.eq_of_toNat_eq h.symm)
        simp at heq
        omega
      · rintro (hfalse | ⟨rest, hrest⟩)
        · cases hfalse
        · cases hrest
    | cons a as =>
      obtain ⟨ha, hne, hrest⟩ := hname
      rw [ha]
      split_ifs with heq
      · rw [ih hrest hxs, ← heq]
        unfold Matches
        simp only [List.cons_append, List.cons.injEq, true_and]
      · constructor
        · intro hdiff
          exact absurd (BitVec.eq_of_toNat_eq (by omega)) heq
        · rintro (hcons | ⟨rest, hcons⟩)
          · exact absurd (List.cons.inj hcons).1.symm heq
          · exact absurd (List.cons.inj hcons).1.symm heq

theorem findChildLoop_spec (hforest : Forest blob h e head) (hzero : 0 ∉ c) :
    ∃ r, Terminates (findChildLoop blob h c · head) r ∧ ∀ j, r = some j ↔ FirstNamed blob h c head j := by
  induction hforest with
  | nil =>
    refine ⟨none, ⟨1, fun fuel hfuel ↦ ?_⟩, fun j ↦ ⟨fun hj ↦ (by cases hj), fun hj ↦ (by cases hj)⟩⟩
    obtain ⟨k, -, rfl⟩ := exists_succ_of_lt hfuel
    rfl
  | @cons e i n name hn hparent hname hproperties hchildren hnext ihchildren ihnext =>
    obtain ⟨r, ⟨N, hrun⟩, hr⟩ := ihnext
    by_cases hmatches : Matches c name
    · refine ⟨some i, ⟨1, fun fuel hfuel ↦ ?_⟩, fun j ↦ ⟨fun hj ↦ ?_, fun hj ↦ ?_⟩⟩
      · obtain ⟨k, -, rfl⟩ := exists_succ_of_lt hfuel
        simp only [findChildLoop, hn, Option.bind_some, (dtStrcmp_eq_zero hname hzero).mpr hmatches,
          if_true]
      · obtain rfl := Option.some.inj hj
        exact .here hn hname hmatches
      · cases hj with
        | here => rfl
        | next hn' hname' hnot =>
          obtain rfl := Option.some.inj (hn.symm.trans hn')
          exact absurd (by rwa [hname'.unique hname]) hnot
    · refine ⟨r, ⟨N + 1, fun fuel hfuel ↦ ?_⟩, fun j ↦ (hr j).trans ⟨fun hj ↦ ?_, fun hj ↦ ?_⟩⟩
      · obtain ⟨k, hk, rfl⟩ := exists_succ_of_lt hfuel
        simp only [findChildLoop, hn, Option.bind_some,
          if_neg (mt (dtStrcmp_eq_zero hname hzero).mp hmatches), hrun k hk]
      · exact .next hn hname hmatches hj
      · cases hj with
        | here hn' hname' hyes =>
          obtain rfl := Option.some.inj (hn.symm.trans hn')
          exact absurd (by rwa [← hname'.unique hname]) hmatches
        | next hn' _ _ hrest => rwa [Option.some.inj (hn.symm.trans hn')]

theorem copyComponent_eq {rest : List (BitVec 8)} (hslash : slash ∉ c)
    (hrest : rest = [] ∨ rest.head? = some slash) (n : ℕ) :
    copyComponent n (c ++ rest) = (c.take n, c.drop n ++ rest) := by
  induction n generalizing c with
  | zero => rfl
  | succ n ih =>
    cases c with
    | nil =>
      rcases hrest with rfl | hrest
      · rfl
      · obtain ⟨tail, rfl⟩ := List.head?_eq_some_iff.mp hrest
        rw [List.nil_append, copyComponent, if_pos rfl]
        rfl
    | cons x xs =>
      rw [List.mem_cons, not_or] at hslash
      rw [List.cons_append, copyComponent, if_neg (Ne.symm hslash.1), ih hslash.2]
      rfl

/-- The node found is a child. -/
theorem FirstNamed.child (hfirst : FirstNamed blob h c head j) (hforest : Forest blob h e head) :
    ∃ n, h.nodes[j]? = some n ∧ n.onParent = some e ∧ Forest blob h j n.onChildren := by
  induction hfirst with
  | here hn =>
    cases hforest with
    | cons hn' hparent _ _ hchildren =>
      obtain rfl := Option.some.inj (hn.symm.trans hn')
      exact ⟨_, hn, hparent, hchildren⟩
  | next hn _ _ _ ih =>
    cases hforest with
    | cons hn' _ _ _ _ hnext =>
      obtain rfl := Option.some.inj (hn.symm.trans hn')
      exact ih hnext

/-! ### Whole paths -/

theorem pieces_of_le (hle : c.length ≤ 63) : pieces c = [c] := by
  rw [pieces, if_pos hle]

theorem pieces_of_lt (hlt : 63 < c.length) : pieces c = c.take 63 :: pieces (c.drop 64) := by
  rw [pieces, if_neg (Nat.not_le.mpr hlt)]

/-- One round of the loop: it continues at the child that the copied characters name, if any. -/
theorem findNodeLoop_step {n : OfNode} {ptrbuf key rest : List (BitVec 8)} {x : BitVec 8}
    (hn : h.nodes[e]? = some n) (hforest : Forest blob h e n.onChildren) (hzero : 0 ∉ ptrbuf)
    (hcopy : copyComponent 63 key = (ptrbuf, rest)) {components : List (List (BitVec 8))}
    (hrest : ∀ (m : ℕ) (n' : OfNode), h.nodes[m]? = some n' → Forest blob h m n'.onChildren →
      ∃ r, Terminates (findNodeLoop blob h · m rest) r ∧
        ∀ j, r = some j ↔ Reaches blob h m components j) :
    ∃ r, Terminates (findNodeLoop blob h · e (x :: key)) r ∧
      ∀ j, r = some j ↔ Reaches blob h e (ptrbuf :: components) j := by
  obtain ⟨found, ⟨N, hrun⟩, hfound⟩ := findChildLoop_spec hforest hzero
  cases found with
  | none =>
    refine ⟨none, ⟨N + 1, fun fuel hfuel ↦ ?_⟩, fun j ↦ ⟨fun hj ↦ (by cases hj), fun hj ↦ ?_⟩⟩
    · obtain ⟨k, hk, rfl⟩ := exists_succ_of_lt hfuel
      simp only [findNodeLoop, hcopy, hn, Option.bind_some, hrun k hk]
    · obtain ⟨n', m, hn', hfirst, -⟩ := hj
      obtain rfl := Option.some.inj (hn.symm.trans hn')
      cases (hfound m).mpr hfirst
  | some m =>
    obtain ⟨n', hn', -, hforest'⟩ := ((hfound m).mp rfl).child hforest
    obtain ⟨r, ⟨M, hloop⟩, hr⟩ := hrest m n' hn' hforest'
    refine ⟨r, ⟨N + M + 1, fun fuel hfuel ↦ ?_⟩, fun j ↦ (hr j).trans ⟨fun hj ↦ ?_, fun hj ↦ ?_⟩⟩
    · obtain ⟨k, hk, rfl⟩ := exists_succ_of_lt hfuel
      simp only [findNodeLoop, hcopy, hn, Option.bind_some, hrun k (by omega), hloop k (by omega)]
    · exact ⟨n, m, hn, (hfound m).mp rfl, hj⟩
    · obtain ⟨n'', m', hn'', hfirst, hreaches⟩ := hj
      obtain rfl := Option.some.inj (hn.symm.trans hn'')
      obtain rfl := Option.some.inj ((hfound m').mpr hfirst)
      exact hreaches

/-- What is looked up are the pieces. -/
theorem findNodeLoop_spec {n : OfNode} (hn : h.nodes[e]? = some n)
    (hforest : Forest blob h e n.onChildren) (hcomponents : ∀ c ∈ components, slash ∉ c ∧ 0 ∉ c) :
    ∃ r, Terminates (findNodeLoop blob h · e (components.flatMap (slash :: ·))) r ∧
      ∀ j, r = some j ↔ Reaches blob h e (components.flatMap pieces) j := by
  induction components generalizing e n with
  | nil =>
    refine ⟨some e, ⟨1, fun fuel hfuel ↦ ?_⟩, fun j ↦ ?_⟩
    · obtain ⟨k, -, rfl⟩ := exists_succ_of_lt hfuel
      rfl
    · rw [List.flatMap_nil, Reaches, Option.some.injEq]
  | cons c rest ih =>
    have hrest : ∀ c ∈ rest, slash ∉ c ∧ 0 ∉ c := fun c hc ↦
      hcomponents c (List.mem_cons_of_mem _ hc)
    have hnext : rest.flatMap (slash :: ·) = [] ∨
        (rest.flatMap (slash :: ·)).head? = some slash := by
      cases rest with
      | nil => exact .inl rfl
      | cons => exact .inr rfl
    have hall : ∀ (x : BitVec 8) (c : List (BitVec 8)), slash ∉ c ∧ 0 ∉ c →
        ∀ (e : ℕ) (n : OfNode), h.nodes[e]? = some n → Forest blob h e n.onChildren →
        ∃ r, Terminates (findNodeLoop blob h · e (x :: (c ++ rest.flatMap (slash :: ·)))) r ∧
          ∀ j, r = some j ↔ Reaches blob h e (pieces c ++ rest.flatMap pieces) j := by
      intro x c hc
      induction hlength : c.length using Nat.strong_induction_on generalizing x c with
      | _ length ihlength =>
        intro e n hn hforest
        have hcopy := copyComponent_eq hc.1 hnext 63
        by_cases hle : c.length ≤ 63
        · rw [List.take_of_length_le hle, List.drop_of_length_le hle] at hcopy
          rw [pieces_of_le hle]
          exact findNodeLoop_step hn hforest hc.2 hcopy fun m n' hn' hforest' ↦
            ih hn' hforest' hrest
        · -- the character after the copied ones is taken for the separator
          have hlt : 63 < c.length := Nat.lt_of_not_le hle
          rw [List.drop_eq_getElem_cons hlt, List.cons_append] at hcopy
          rw [pieces_of_lt hlt]
          refine findNodeLoop_step hn hforest (fun h ↦ hc.2 (List.mem_of_mem_take h)) hcopy
            fun m n' hn' hforest' ↦ ?_
          exact ihlength (c.drop 64).length (by rw [List.length_drop]; omega) _ _
            ⟨fun h ↦ hc.1 (List.mem_of_mem_drop h), fun h ↦ hc.2 (List.mem_of_mem_drop h)⟩ rfl
            m n' hn' hforest'
    have hc := hcomponents c List.mem_cons_self
    exact hall slash c hc e n hn hforest

theorem dtFindNode_spec {n : OfNode} (hn : h.nodes[root]? = some n)
    (hforest : Forest blob h root n.onChildren) (hcomponents : ∀ c ∈ components, IsComponent c) :
    ∃ r, Terminates (dtFindNode blob h root · (pathOf components)) r ∧
      ∀ j, r = some j ↔ Reaches blob h root (components.flatMap pieces) j := by
  obtain ⟨r, ⟨N, hrun⟩, hr⟩ := findNodeLoop_spec hn hforest fun c hc ↦
    ⟨(hcomponents c hc).slash, (hcomponents c hc).zero⟩
  cases components with
  | nil =>
    refine ⟨some root, ⟨0, fun _ _ ↦ rfl⟩, fun j ↦ ?_⟩
    rw [List.flatMap_nil, Reaches, Option.some.injEq]
  | cons c rest =>
    refine ⟨r, ⟨N, fun fuel hfuel ↦ ?_⟩, hr⟩
    have hlong : (c :: rest).flatMap (slash :: ·) ≠ [slash] := by
      have hne := (hcomponents c List.mem_cons_self).nonempty
      obtain ⟨x, xs, rfl⟩ := List.exists_cons_of_ne_nil hne
      rw [List.flatMap_cons, List.cons_append, List.cons_append]
      exact fun heq ↦ by cases (List.cons.inj heq).2
    have hpath : pathOf (c :: rest) = (c :: rest).flatMap (slash :: ·) := if_neg (by simp)
    show dtFindNode blob h root fuel (pathOf (c :: rest)) = some r
    rw [hpath, dtFindNode, if_neg hlong,
      if_pos (show List.head? _ = some slash from rfl)]
    exact hrun fuel hfuel

/-! ### Depth -/

/-- The ancestor a number of steps up. -/
def ancestor (h : Heap) : ℕ → ℕ → Option ℕ
  | 0, j => some j
  | k + 1, j => (ancestor h k j).bind fun i ↦ h.nodes[i]?.bind OfNode.onParent

theorem ancestor_add (k l : ℕ) : ancestor h (k + l) j = (ancestor h k j).bind (ancestor h l) := by
  induction l with
  | zero =>
    rw [Nat.add_zero]
    cases ancestor h k j <;> rfl
  | succ l ih =>
    rw [← Nat.add_assoc, ancestor, ih, Option.bind_assoc]
    rfl

theorem Reaches.ancestor_eq {n : OfNode} (hreaches : Reaches blob h e components j)
    (hn : h.nodes[e]? = some n) (hforest : Forest blob h e n.onChildren) :
    ancestor h components.length j = some e := by
  induction components generalizing e n with
  | nil => exact congrArg some hreaches.symm
  | cons c rest ih =>
    obtain ⟨n', m, hn', hfirst, hrest⟩ := hreaches
    obtain rfl := Option.some.inj (hn.symm.trans hn')
    obtain ⟨child, hchild, hparent, hbelow⟩ := hfirst.child hforest
    rw [List.length_cons, ancestor, ih hrest hchild hbelow, Option.bind_some, hchild,
      Option.bind_some, hparent]

/-- Paths to one node have the same length. -/
theorem Reaches.length_eq {n : OfNode} {components' : List (List (BitVec 8))}
    (h₁ : Reaches blob h root components j) (h₂ : Reaches blob h root components' j)
    (hn : h.nodes[root]? = some n) (hparent : n.onParent = none)
    (hforest : Forest blob h root n.onChildren) : components.length = components'.length := by
  have hnone : ∀ k, ancestor h (k + 1) root = none := fun k ↦ by
    have hone : ancestor h 1 root = none := by
      rw [ancestor, ancestor, Option.bind_some, hn, Option.bind_some, hparent]
    rw [Nat.add_comm, ancestor_add, hone, Option.bind_none]
  have hle : ∀ k l, ancestor h k j = some root → ancestor h l j = some root → ¬ k < l := by
    intro k l hk hl hlt
    obtain ⟨d, rfl⟩ := Nat.exists_eq_add_of_lt hlt
    rw [Nat.add_assoc, ancestor_add, hk, Option.bind_some, hnone] at hl
    cases hl
  have hfirst := h₁.ancestor_eq hn hforest
  have hsecond := h₂.ancestor_eq hn hforest
  have := hle _ _ hfirst hsecond
  have := hle _ _ hsecond hfirst
  omega

theorem length_pieces_pos (c : List (BitVec 8)) : 0 < (pieces c).length := by
  rw [pieces]
  split_ifs
  · exact Nat.one_pos
  · exact Nat.succ_pos _

/-- A component that is too long gives more pieces than components. -/
theorem length_flatMap_pieces :
    components.length ≤ (components.flatMap pieces).length ∧
      ((∃ c ∈ components, 63 < c.length) →
        components.length < (components.flatMap pieces).length) := by
  induction components with
  | nil => exact ⟨le_rfl, fun ⟨_, hc, _⟩ ↦ absurd hc List.not_mem_nil⟩
  | cons c rest ih =>
    obtain ⟨hle, hlt⟩ := ih
    have hpos := length_pieces_pos c
    rw [List.flatMap_cons, List.length_append, List.length_cons]
    refine ⟨by omega, fun ⟨c', hc', hlong⟩ ↦ ?_⟩
    rcases List.mem_cons.mp hc' with rfl | hc'
    · have hmore := length_pieces_pos (c'.drop 64)
      rw [pieces_of_lt hlong, List.length_cons]
      omega
    · have hless := hlt ⟨c', hc', hlong⟩
      omega

theorem flatMap_pieces_of_le (hshort : ∀ c ∈ components, c.length ≤ 63) :
    components.flatMap pieces = components := by
  induction components with
  | nil => rfl
  | cons c rest ih =>
    rw [List.flatMap_cons, pieces_of_le (hshort c List.mem_cons_self),
      ih fun c' hc' ↦ hshort c' (List.mem_cons_of_mem _ hc')]
    rfl

/-- Look-ups in a parsed tree are right when the components fit into the buffer, and otherwise only
when nothing is found either way. -/
theorem lookups_right_iff (hbuilt : BuiltNode blob h none name items lo hi)
    (hwords : items.PhandleWords) (hcomponents : ∀ c ∈ components, IsComponent c) (phandle : ℕ) :
    (LooksUp blob h lo.nodes components ∧ FindsPhandle blob h lo.nodes phandle) ↔
      ((∀ c ∈ components, c.length ≤ 63) ∨
        ∀ j, ¬ Reaches blob h lo.nodes components j ∧
          ¬ Reaches blob h lo.nodes (components.flatMap pieces) j) := by
  obtain ⟨n, hn, hparent, -, hitems⟩ := hbuilt
  obtain ⟨hforest, hproperties⟩ := hitems.forest hwords (.nil _) .nil
  obtain ⟨r, ⟨N, hrun⟩, hr⟩ := dtFindNode_spec hn hforest hcomponents
  have hphandle := findsPhandle hn hproperties hforest phandle
  have hlooks : LooksUp blob h lo.nodes components ↔
      ∀ j, Reaches blob h lo.nodes (components.flatMap pieces) j ↔
        Reaches blob h lo.nodes components j := by
    constructor
    · rintro ⟨M, hlook⟩ j
      obtain ⟨r', hr', hreaches⟩ := hlook (N + M) (Nat.le_add_left _ _)
      obtain rfl := Option.some.inj (hr'.symm.trans (hrun _ (Nat.le_add_right _ _)))
      exact (hr j).symm.trans (hreaches j)
    · exact fun hsame ↦ ⟨N, fun fuel hfuel ↦ ⟨r, hrun fuel hfuel, fun j ↦ (hr j).trans (hsame j)⟩⟩
  rw [and_iff_left hphandle, hlooks]
  constructor
  · intro hsame
    by_cases hshort : ∀ c ∈ components, c.length ≤ 63
    · exact .inl hshort
    · refine .inr fun j ↦ ?_
      have hnot : ¬ Reaches blob h lo.nodes components j := fun hreaches ↦ by
        have hlength := hreaches.length_eq ((hsame j).mpr hreaches) hn hparent hforest
        have hmore := length_flatMap_pieces.2 (by simpa using hshort)
        omega
      exact ⟨hnot, fun hreaches ↦ hnot ((hsame j).mp hreaches)⟩
  · rintro (hshort | hnone) j
    · rw [flatMap_pieces_of_le hshort]
    · exact iff_of_false (hnone j).2 (hnone j).1

/-! ### A name of 64 characters -/

def longName : List (BitVec 8) := List.replicate 64 0x61

/-- The names "" and `longName`. -/
def longBlob : Blob := fun i ↦ if 1 ≤ i ∧ i < 65 then 0x61 else 0

def longHeap : Heap := ⟨[⟨none, none, 0, some 1, none⟩, ⟨none, some 0, 1, none, none⟩], []⟩

theorem longHeap_built :
    BuiltNode longBlob longHeap none [] (.node longName .nil .nil) ⟨0, 0⟩ ⟨2, 0⟩ := by
  have hname : CString longBlob longName 1 := (strcmp_iff (by decide)).mp (by decide)
  have hempty : CString longBlob [] 0 := (strcmp_iff (by decide)).mp (by decide)
  exact ⟨_, rfl, rfl, hempty, _, ⟨2, 0⟩, rfl, rfl, rfl, hname, ⟨rfl, rfl⟩, rfl, rfl⟩

/-- The child is not found. -/
theorem longName_not_found :
    Reaches longBlob longHeap 0 [longName] 1 ∧ ¬ LooksUp longBlob longHeap 0 [longName] := by
  have hname : CString longBlob longName 1 := (strcmp_iff (by decide)).mp (by decide)
  have hreaches : Reaches longBlob longHeap 0 [longName] 1 :=
    ⟨_, 1, rfl, .here rfl hname (.inl rfl), rfl⟩
  refine ⟨hreaches, fun ⟨N, hlook⟩ ↦ ?_⟩
  obtain ⟨r, hr, hiff⟩ := hlook (N + 3) (Nat.le_add_right _ _)
  have hnone : dtFindNode longBlob longHeap 0 (N + 3) (pathOf [longName]) = some none := by
    rfl
  cases hnone.symm.trans (hr.trans (congrArg some ((hiff 1).mpr hreaches)))

/-- A name that fits is found. -/
theorem lookups_right_short :
    LooksUp longBlob longHeap 0 [[0x61]] ∧ FindsPhandle longBlob longHeap 0 7 :=
  (lookups_right_iff longHeap_built ⟨trivial, trivial⟩ (fun c hc ↦ by
    rw [List.mem_singleton.mp hc]
    exact ⟨by decide, by decide, by decide⟩) 7).mpr (.inl (by decide))

end Emu68.DeviceTree
