import Emu68.Lib.ByteMemory
import Mathlib.Data.List.DropRight
import Mathlib.Data.List.Infix

/-!
The search for a boot argument (`findtoken.c`). Words of the argument string are named by their
position in it, and what the code compares is compared with what a word should be compared with: the
whole token, or the token up to its `=`.
-/

set_option autoImplicit false
set_option relaxedAutoImplicit false

namespace Emu68.Boot

open Lib (Bytes)

def blank (c : UInt8) : Bool := c = 0x20 || c = 0x09

/-- `=` -/
def equalSign : UInt8 := 0x3d

/-! ### The code -/

/-- The pointer moves on while the character under it is as `p` says. -/
def skipWhile (p : UInt8 → Bool) (mem : Bytes) : ℕ → ℕ → Option ℕ
  | 0, _ => none
  | fuel + 1, string => if p (mem string) then skipWhile p mem fuel (string + 1) else some string

def skipBlanks : Bytes → ℕ → ℕ → Option ℕ := skipWhile blank

def skipWord : Bytes → ℕ → ℕ → Option ℕ := skipWhile fun c ↦ c ≠ 0 && !blank c

/-- The loop over the token from `i` on, and whether it sets `ret`. -/
def matchToken (mem : Bytes) (string token : ℕ) : ℕ → ℕ → Option Bool
  | 0, _ => none
  | fuel + 1, i =>
    if mem (token + i) = 0 then some false
    else if mem (string + i) ≠ mem (token + i) then some false
    else if mem (token + i) = equalSign then some true
    else if mem (string + i + 1) = 0 || blank (mem (string + i + 1)) then some true
    else matchToken mem string token fuel (i + 1)

/-- The loop over the words. -/
def searchLoop (mem : Bytes) (token : ℕ) : ℕ → ℕ → Option (Option ℕ)
  | 0, _ => none
  | fuel + 1, string =>
    (skipBlanks mem fuel string).bind fun string ↦
      if mem string = 0 then some none
      else (matchToken mem string token fuel 0).bind fun ret ↦
        if ret then some (some string)
        else (skipWord mem fuel string).bind fun string ↦
          if mem string ≠ 0 then searchLoop mem token fuel string else some none

/-- A result without a pointer is `NULL`. -/
def findToken (mem : Bytes) (fuel string token : ℕ) : Option (Option ℕ) :=
  if string ≠ 0 then searchLoop mem token fuel string else some none

/-! ### What it is for -/

/-- The characters from `a` on up to the terminating zero. -/
def CString (mem : Bytes) : ℕ → List UInt8 → Prop
  | a, [] => mem a = 0
  | a, c :: s => mem a = c ∧ c ≠ 0 ∧ CString mem (a + 1) s

instance decidableCString (mem : Bytes) : ∀ a s, Decidable (CString mem a s)
  | a, [] => inferInstanceAs (Decidable (mem a = 0))
  | a, c :: s =>
    have := decidableCString mem (a + 1) s
    inferInstanceAs (Decidable (mem a = c ∧ c ≠ 0 ∧ CString mem (a + 1) s))

/-- `w` is the blank-delimited word at position `i`. -/
structure IsWord (s : List UInt8) (i : ℕ) (w : List UInt8) : Prop where
  ne_nil : w ≠ []
  at_pos : w <+: s.drop i
  no_blank : ∀ c ∈ w, blank c = false
  before : i = 0 ∨ ∃ c, s[i - 1]? = some c ∧ blank c = true
  behind : ∀ c, s[i + w.length]? = some c → blank c = true

/-- The word is the token, or it begins with the token up to the first `=`. -/
def Matches (t w : List UInt8) : Prop :=
  w = t ∨ ∃ key, equalSign ∉ key ∧ key ++ [equalSign] <+: t ∧ key ++ [equalSign] <+: w

/-- The word breaks off before the token does, and before its `=`. -/
def Stub (t w : List UInt8) : Prop := w <+: t ∧ w ≠ t ∧ equalSign ∉ w

/-- The position of the first word with the property. -/
def First (P : List UInt8 → Prop) (s : List UInt8) : Option ℕ → Prop
  | some i => (∃ w, IsWord s i w ∧ P w) ∧ ∀ j < i, ∀ w, IsWord s j w → ¬ P w
  | none => ∀ j w, IsWord s j w → ¬ P w

/-- The search ends, at the first word that matches. -/
def FindsRight (mem : Bytes) (string token : ℕ) (s t : List UInt8) : Prop :=
  ∃ r, First (Matches t) s r ∧
    ∃ fuel₀, ∀ fuel ≥ fuel₀, findToken mem fuel string token = some (r.map (string + ·))

variable {mem : Bytes} {a string token fuel : ℕ} {s t w : List UInt8} {i j : ℕ}

/-! ### Words -/

theorem blank_zero : blank 0 = false := by decide

theorem CString.drop (h : CString mem a s) (hi : i ≤ s.length) :
    CString mem (a + i) (s.drop i) := by
  induction i generalizing a s with
  | zero => exact h
  | succ i ih =>
    cases s with
    | nil => exact absurd hi (Nat.not_succ_le_zero i)
    | cons c s =>
      rw [show a + (i + 1) = a + 1 + i by omega]
      exact ih h.2.2 (Nat.le_of_succ_le_succ hi)

theorem CString.ne_zero (h : CString mem a s) : 0 ∉ s := by
  induction s generalizing a with
  | nil => exact List.not_mem_nil
  | cons c s ih =>
    rw [List.mem_cons, not_or]
    exact ⟨Ne.symm h.2.1, ih h.2.2⟩

/-- The character at a place of the string, or the zero behind it. -/
theorem CString.head (h : CString mem a s) : mem a = s.headD 0 := by
  cases s with
  | nil => exact h
  | cons c s => exact h.1

theorem CString.head_eq_zero (h : CString mem a s) : mem a = 0 ↔ s = [] := by
  cases s with
  | nil => exact iff_of_true h rfl
  | cons c s => exact iff_of_false (h.1 ▸ h.2.1) (List.cons_ne_nil c s)

theorem skipWhile_spec {p : UInt8 → Bool} (hp : p 0 = false) (h : CString mem a s)
    (hfuel : s.length < fuel) : skipWhile p mem fuel a = some (a + (s.takeWhile p).length) := by
  induction s generalizing a fuel with
  | nil =>
    obtain ⟨fuel, rfl⟩ := Nat.exists_eq_add_of_le' (show 1 ≤ fuel from hfuel)
    have hend : mem a = 0 := h
    rw [skipWhile, hend, hp]
    rfl
  | cons c s ih =>
    rw [List.length_cons] at hfuel
    obtain ⟨fuel, rfl⟩ := Nat.exists_eq_add_of_le' (show 1 ≤ fuel by omega)
    obtain ⟨hc, -, hrest⟩ := h
    rw [skipWhile, hc, List.takeWhile_cons]
    cases hpc : p c with
    | false => rfl
    | true =>
      rw [if_pos rfl, ih hrest (by omega)]
      simp only [if_true, List.length_cons]
      congr 1
      omega

/-- A list is determined by its property and what follows. -/
theorem eq_takeWhile {p : UInt8 → Bool} {l : List UInt8} (hbegins : w <+: l)
    (hall : ∀ c ∈ w, p c = true) (hend : ∀ c, l[w.length]? = some c → p c = false) :
    w = l.takeWhile p := by
  induction w generalizing l with
  | nil =>
    cases l with
    | nil => rfl
    | cons c l => rw [List.takeWhile_cons, hend c rfl]; rfl
  | cons d w ih =>
    cases l with
    | nil => exact absurd (List.prefix_nil.mp hbegins) (List.cons_ne_nil d w)
    | cons c l =>
      obtain ⟨rfl, hrest⟩ := List.cons_prefix_cons.mp hbegins
      rw [List.takeWhile_cons, hall d List.mem_cons_self, if_pos rfl,
        ← ih hrest (fun c hc ↦ hall c (List.mem_cons_of_mem d hc)) fun c hc ↦ hend c hc]

theorem takeWhile_stops {p : UInt8 → Bool} {l : List UInt8} {d : UInt8}
    (h : l[(l.takeWhile p).length]? = some d) : p d = false := by
  induction l with
  | nil => simp at h
  | cons c l ih =>
    cases hpc : p c with
    | false =>
      rw [List.takeWhile_cons, hpc] at h
      obtain rfl : c = d := Option.some.inj h
      exact hpc
    | true =>
      rw [List.takeWhile_cons, hpc] at h
      exact ih h

theorem IsWord.eq_takeWhile (h : IsWord s i w) :
    w = (s.drop i).takeWhile fun c ↦ !blank c := by
  refine Boot.eq_takeWhile h.at_pos (fun c hc ↦ by rw [h.no_blank c hc]; rfl) fun c hc ↦ ?_
  rw [List.getElem?_drop] at hc
  rw [h.behind c hc]
  rfl

theorem IsWord.unique {v : List UInt8} (h : IsWord s i w) (h' : IsWord s i v) : w = v :=
  h.eq_takeWhile.trans h'.eq_takeWhile.symm

/-- A word begins with a character that is no blank. -/
theorem IsWord.first (h : IsWord s i w) : ∃ c, s[i]? = some c ∧ blank c = false := by
  obtain ⟨c, v, rfl⟩ := List.exists_cons_of_ne_nil h.ne_nil
  obtain ⟨l, hl⟩ := h.at_pos
  refine ⟨c, ?_, h.no_blank c List.mem_cons_self⟩
  have hhead : (s.drop i)[0]? = some c := by rw [← hl]; rfl
  rwa [List.getElem?_drop, Nat.add_zero] at hhead

theorem isWord_takeWhile {c : UInt8} (hc : s[i]? = some c) (hblank : blank c = false)
    (hbefore : i = 0 ∨ ∃ c, s[i - 1]? = some c ∧ blank c = true) :
    IsWord s i ((s.drop i).takeWhile fun c ↦ !blank c) where
  ne_nil := by
    obtain ⟨l, hl⟩ : ∃ l, s.drop i = c :: l := by
      obtain ⟨hi, rfl⟩ := List.getElem?_eq_some_iff.mp hc
      exact ⟨_, List.drop_eq_getElem_cons hi⟩
    rw [hl, List.takeWhile_cons, hblank]
    exact List.cons_ne_nil _ _
  at_pos := List.takeWhile_prefix _
  no_blank d hd := by
    have hd' := List.mem_takeWhile_imp hd
    simpa using hd'
  before := hbefore
  behind d hd := by
    have hlength : (s.drop i)[((s.drop i).takeWhile fun c ↦ !blank c).length]? = some d := by
      rw [List.getElem?_drop]
      exact hd
    have hfails : (!blank d) = false := takeWhile_stops hlength
    simpa using hfails

/-! ### One word -/

/-- What the loop over the token accepts. -/
def accepts : List UInt8 → List UInt8 → Bool
  | [], _ => false
  | _ :: _, [] => false
  | d :: t, c :: w => c = d && (d = equalSign || w.isEmpty || accepts t w)

/-- The word is in memory, and behind it is a blank or the end of the string. -/
def WordAt (mem : Bytes) : ℕ → List UInt8 → Prop
  | a, [] => mem a = 0 ∨ blank (mem a) = true
  | a, c :: w => mem a = c ∧ c ≠ 0 ∧ blank c = false ∧ WordAt mem (a + 1) w

theorem matchToken_spec (hw : WordAt mem (string + i) w) (hne : w ≠ [])
    (ht : CString mem (token + i) t) (hfuel : t.length < fuel) :
    matchToken mem string token fuel i = some (accepts t w) := by
  induction t generalizing w i fuel with
  | nil =>
    obtain ⟨fuel, rfl⟩ := Nat.exists_eq_add_of_le' (show 1 ≤ fuel from hfuel)
    exact if_pos ht
  | cons d t ih =>
    rw [List.length_cons] at hfuel
    obtain ⟨fuel, rfl⟩ := Nat.exists_eq_add_of_le' (show 1 ≤ fuel by omega)
    obtain ⟨c, w, rfl⟩ := List.exists_cons_of_ne_nil hne
    obtain ⟨hc, -, -, hrest⟩ := hw
    obtain ⟨hd, hzero, ht'⟩ := ht
    rw [matchToken, hc, hd, if_neg hzero, accepts]
    by_cases hsame : c = d
    · rw [if_neg (not_not.mpr hsame)]
      by_cases hequal : d = equalSign
      · simp [hsame, hequal]
      · rw [if_neg hequal]
        cases w with
        | nil =>
          have hend : (mem (string + i + 1) = 0 || blank (mem (string + i + 1))) = true := by
            simpa [WordAt] using hrest
          rw [if_pos hend]
          simp [hsame]
        | cons c' w =>
          obtain ⟨hc', hne', hblank', hrest'⟩ := hrest
          have hend : ¬ (mem (string + i + 1) = 0 || blank (mem (string + i + 1))) = true := by
            simp [hc', hne', hblank']
          have hnext : WordAt mem (string + (i + 1)) (c' :: w) := ⟨hc', hne', hblank', hrest'⟩
          rw [if_neg hend, ih hnext (List.cons_ne_nil c' w) ht' (by omega)]
          simp [hsame, hequal]
    · rw [if_pos hsame]
      simp [hsame]

/-- Accepted is what agrees with the token up to the end of the word, or to an `=`. -/
theorem accepts_iff_begins (hne : w ≠ []) : accepts t w = true ↔ w <+: t ∨
    ∃ key, equalSign ∉ key ∧ key ++ [equalSign] <+: t ∧ key ++ [equalSign] <+: w := by
  induction t generalizing w with
  | nil =>
    refine iff_of_false (by simp [accepts]) ?_
    rintro (h | ⟨key, -, h, -⟩)
    · exact hne (List.prefix_nil.mp h)
    · simp at h
  | cons d t ih =>
    obtain ⟨c, w, rfl⟩ := List.exists_cons_of_ne_nil hne
    rw [accepts, Bool.and_eq_true, decide_eq_true_iff, Bool.or_eq_true, Bool.or_eq_true,
      decide_eq_true_iff, List.isEmpty_iff]
    constructor
    · rintro ⟨rfl, (rfl | rfl) | h⟩
      · exact .inr ⟨[], List.not_mem_nil, by simp, by simp⟩
      · exact .inl (by simp)
      · by_cases hw : w = []
        · subst hw
          exact .inl (by simp)
        · rcases (ih hw).mp h with hbegins | ⟨key, hkey, ht, hw'⟩
          · exact .inl (List.cons_prefix_cons.mpr ⟨rfl, hbegins⟩)
          · by_cases hc : c = equalSign
            · subst hc
              exact .inr ⟨[], List.not_mem_nil, by simp, by simp⟩
            · exact .inr ⟨c :: key, by simp [hkey, Ne.symm hc],
                List.cons_prefix_cons.mpr ⟨rfl, ht⟩, List.cons_prefix_cons.mpr ⟨rfl, hw'⟩⟩
    · rintro (h | ⟨key, hkey, ht, hw⟩)
      · obtain ⟨rfl, hrest⟩ := List.cons_prefix_cons.mp h
        refine ⟨rfl, ?_⟩
        by_cases hw : w = []
        · exact .inl (.inr hw)
        · exact .inr ((ih hw).mpr (.inl hrest))
      · cases key with
        | nil =>
          obtain ⟨rfl, -⟩ := List.cons_prefix_cons.mp ht
          obtain ⟨rfl, -⟩ := List.cons_prefix_cons.mp hw
          exact ⟨rfl, .inl (.inl rfl)⟩
        | cons k key =>
          obtain ⟨rfl, ht'⟩ := List.cons_prefix_cons.mp ht
          obtain ⟨rfl, hw'⟩ := List.cons_prefix_cons.mp hw
          refine ⟨rfl, .inr ((ih ?_).mpr (.inr ⟨key, ?_, ht', hw'⟩))⟩
          · rintro rfl
            simp at hw'
          · exact fun h ↦ hkey (List.mem_cons_of_mem k h)

theorem accepts_iff (hne : w ≠ []) : accepts t w = true ↔ Matches t w ∨ Stub t w := by
  rw [accepts_iff_begins hne]
  constructor
  · rintro (h | h)
    · by_cases hw : w = t
      · exact .inl (.inl hw)
      · by_cases hequal : equalSign ∈ w
        · obtain ⟨key, rest, hsplit, hkey⟩ := List.eq_append_cons_of_mem hequal
          have hw' : key ++ [equalSign] <+: w := ⟨rest, by rw [hsplit]; simp⟩
          exact .inl (.inr ⟨key, hkey, hw'.trans h, hw'⟩)
        · exact .inr ⟨h, hw, hequal⟩
    · exact .inl (.inr h)
  · rintro ((rfl | h) | h)
    · exact .inl (List.prefix_refl w)
    · exact .inr h
    · exact .inl h.1

theorem Stub.not_matches (h : Stub t w) : ¬ Matches t w := by
  rintro (rfl | ⟨key, -, -, hw⟩)
  · exact h.2.1 rfl
  · exact h.2.2 (hw.subset (by simp))

theorem CString.wordAt (h : CString mem a s) : WordAt mem a (s.takeWhile fun c ↦ !blank c) := by
  induction s generalizing a with
  | nil => exact .inl h
  | cons c s ih =>
    obtain ⟨hc, hne, hrest⟩ := h
    rw [List.takeWhile_cons]
    cases hblank : blank c with
    | false => exact ⟨hc, hne, hblank, ih hrest⟩
    | true => exact .inr (hc ▸ hblank)

theorem takeWhile_word (h : 0 ∉ s) :
    (s.takeWhile fun c ↦ c ≠ 0 && !blank c) = s.takeWhile fun c ↦ !blank c := by
  induction s with
  | nil => rfl
  | cons c s ih =>
    rw [List.mem_cons, not_or] at h
    have hc : (decide (c ≠ 0) && !blank c) = !blank c := by
      rw [decide_eq_true (Ne.symm h.1), Bool.true_and]
    simp only [List.takeWhile_cons, hc, ih h.2]

theorem takeWhile_inside {p : UInt8 → Bool} {l : List UInt8} {k : ℕ}
    (hk : k < (l.takeWhile p).length) : ∃ c, l[k]? = some c ∧ p c = true := by
  obtain ⟨rest, hrest⟩ := List.takeWhile_prefix (l := l) p
  refine ⟨(l.takeWhile p)[k], ?_, List.mem_takeWhile_imp (List.getElem_mem hk)⟩
  rw [← List.getElem?_eq_getElem hk]
  conv_lhs => rw [← hrest]
  exact List.getElem?_append_left hk

/-! ### The search -/

/-- The first word with the property, among the words from position `n` on. -/
def FirstFrom (P : List UInt8 → Prop) (s : List UInt8) (n : ℕ) : Option ℕ → Prop
  | some i => n ≤ i ∧ (∃ w, IsWord s i w ∧ P w) ∧
    ∀ j, n ≤ j → j < i → ∀ w, IsWord s j w → ¬ P w
  | none => ∀ j, n ≤ j → ∀ w, IsWord s j w → ¬ P w

/-- Positions without such a word may be passed over. -/
theorem FirstFrom.skip {P : List UInt8 → Prop} {n k : ℕ} {r : Option ℕ} (h : FirstFrom P s k r)
    (hnk : n ≤ k) (hnone : ∀ j, n ≤ j → j < k → ∀ w, IsWord s j w → ¬ P w) :
    FirstFrom P s n r := by
  cases r with
  | none =>
    intro j hj
    rcases Nat.lt_or_ge j k with hlt | hge
    · exact hnone j hj hlt
    · exact h j hge
  | some i =>
    obtain ⟨hk, hword, hbefore⟩ := h
    refine ⟨hnk.trans hk, hword, fun j hj hji ↦ ?_⟩
    rcases Nat.lt_or_ge j k with hlt | hge
    · exact hnone j hj hlt
    · exact hbefore j hge hji

/-- No word begins at a blank or behind the string. -/
theorem not_isWord_of_blank (h : ∀ c, s[i]? = some c → blank c = true) (w : List UInt8) :
    ¬ IsWord s i w := by
  intro hw
  obtain ⟨c, hc, hblank⟩ := hw.first
  rw [h c hc] at hblank
  exact absurd hblank (by decide)

/-- No word begins within a word. -/
theorem IsWord.not_within (h : IsWord s i w) (hij : i < j) (hj : j < i + w.length)
    (v : List UInt8) : ¬ IsWord s j v := by
  intro hv
  rcases hv.before with rfl | ⟨c, hc, hblank⟩
  · exact absurd hij (Nat.not_lt_zero i)
  · rw [h.eq_takeWhile] at hj
    obtain ⟨d, hd, hnot⟩ :=
      takeWhile_inside (l := s.drop i) (p := fun c ↦ !blank c) (k := j - 1 - i) (by omega)
    rw [List.getElem?_drop, show i + (j - 1 - i) = j - 1 by omega, hc] at hd
    obtain rfl := Option.some.inj hd
    rw [hblank] at hnot
    exact absurd hnot (by decide)

theorem IsWord.end_le (h : IsWord s i w) : i + w.length ≤ s.length := by
  have hlength := h.at_pos.length_le
  have hpos := List.length_pos_iff.mpr h.ne_nil
  rw [List.length_drop] at hlength
  omega

theorem searchLoop_spec {n : ℕ} (hs : CString mem string s) (ht : CString mem token t)
    (hn : n ≤ s.length) (hstart : n = 0 ∨ ∀ c, s[n]? = some c → blank c = true) :
    ∃ r, FirstFrom (fun w ↦ accepts t w = true) s n r ∧
      ∀ fuel, s.length - n + s.length + t.length + 1 < fuel →
        searchLoop mem token fuel (string + n) = some (r.map (string + ·)) := by
  induction hm : s.length - n using Nat.strong_induction_on generalizing n with
  | _ m ih =>
  have hat := hs.drop hn
  have hblanks : ∀ fuel, s.length < fuel →
      skipBlanks mem fuel (string + n) =
        some (string + (n + ((s.drop n).takeWhile blank).length)) := by
    intro fuel hfuel
    have hlength : (s.drop n).length < fuel := by
      rw [List.length_drop]
      omega
    rw [← Nat.add_assoc]
    exact skipWhile_spec blank_zero hat hlength
  set q := n + ((s.drop n).takeWhile blank).length with hq
  have hqle : q ≤ s.length := by
    have hle := (List.takeWhile_prefix (l := s.drop n) blank).length_le
    rw [List.length_drop] at hle
    omega
  have hinside : ∀ k, n ≤ k → k < q → ∃ c, s[k]? = some c ∧ blank c = true := by
    intro k hk hkq
    obtain ⟨c, hc, hblank⟩ := takeWhile_inside (l := s.drop n) (p := blank) (k := k - n) (by omega)
    rw [List.getElem?_drop, show n + (k - n) = k by omega] at hc
    exact ⟨c, hc, hblank⟩
  have hnoWord : ∀ k, n ≤ k → k < q → ∀ w, ¬ IsWord s k w := by
    intro k hk hkq
    obtain ⟨c, hc, hblank⟩ := hinside k hk hkq
    exact not_isWord_of_blank fun d hd ↦ Option.some.inj (hc.symm.trans hd) ▸ hblank
  have hatq := hs.drop hqle
  cases hc : s[q]? with
  | none =>
    have hend : mem (string + q) = 0 :=
      hatq.head_eq_zero.mpr (List.drop_eq_nil_of_le (List.getElem?_eq_none_iff.mp hc))
    refine ⟨none, fun j hj w hw ↦ ?_, fun fuel hfuel ↦ ?_⟩
    · rcases Nat.lt_or_ge j q with hlt | hge
      · exact absurd hw (hnoWord j hj hlt w)
      · have hnone : s[j]? = none := List.getElem?_eq_none_iff.mpr
          ((List.getElem?_eq_none_iff.mp hc).trans hge)
        exact absurd hw (not_isWord_of_blank (fun d hd ↦ by rw [hnone] at hd; cases hd) w)
    · obtain ⟨fuel, rfl⟩ := Nat.exists_eq_add_of_le' (show 1 ≤ fuel by omega)
      rw [searchLoop, hblanks fuel (by omega), Option.bind_some, if_pos hend]
      rfl
  | some c =>
    have hblank : blank c = false := by
      refine takeWhile_stops (p := blank) (l := s.drop n) ?_
      rw [List.getElem?_drop]
      exact hc
    have hbefore : q = 0 ∨ ∃ c, s[q - 1]? = some c ∧ blank c = true := by
      rcases Nat.eq_or_lt_of_le (show n ≤ q by omega) with hsame | hlt
      · rcases hstart with hzero | hafter
        · exact .inl (hsame.symm.trans hzero)
        · rw [hafter c (hsame ▸ hc)] at hblank
          exact absurd hblank (by decide)
      · exact .inr (hinside (q - 1) (by omega) (by omega))
    have hword := isWord_takeWhile hc hblank hbefore
    set w := (s.drop q).takeWhile fun c ↦ !blank c with hw
    have hne : mem (string + q) ≠ 0 := by
      rw [Ne, hatq.head_eq_zero]
      intro hnil
      rw [List.drop_eq_nil_iff] at hnil
      rw [List.getElem?_eq_none hnil] at hc
      cases hc
    have hmatch : ∀ fuel, t.length < fuel →
        matchToken mem (string + q) token fuel 0 = some (accepts t w) :=
      fun fuel hfuel ↦ matchToken_spec hatq.wordAt hword.ne_nil ht hfuel
    have hlength := hword.end_le
    have hpos := List.length_pos_iff.mpr hword.ne_nil
    cases haccepts : accepts t w with
    | true =>
      refine ⟨some q, ⟨by omega, ⟨w, hword, haccepts⟩,
        fun j hj hjq v hv ↦ absurd hv (hnoWord j hj hjq v)⟩, fun fuel hfuel ↦ ?_⟩
      obtain ⟨fuel, rfl⟩ := Nat.exists_eq_add_of_le' (show 1 ≤ fuel by omega)
      rw [searchLoop, hblanks fuel (by omega), Option.bind_some, if_neg hne,
        hmatch fuel (by omega), Option.bind_some, haccepts]
      rfl
    | false =>
      have hskip : ∀ fuel, s.length < fuel →
          skipWord mem fuel (string + q) = some (string + (q + w.length)) := by
        intro fuel hfuel
        have hdrop : (s.drop q).length < fuel := by
          rw [List.length_drop]
          omega
        have hspec := skipWhile_spec (p := fun c ↦ c ≠ 0 && !blank c) (by decide) hatq hdrop
        rw [takeWhile_word hatq.ne_zero] at hspec
        exact hspec.trans (congrArg some (Nat.add_assoc string q w.length))
      -- The word itself is not accepted, and no other begins before its end.
      have hnone : ∀ j, n ≤ j → j < q + w.length → ∀ v, IsWord s j v → ¬ accepts t v = true := by
        intro j hj hjw v hv
        rcases Nat.lt_trichotomy j q with hlt | rfl | hgt
        · exact absurd hv (hnoWord j hj hlt v)
        · rw [hv.unique hword, haccepts]
          exact Bool.false_ne_true
        · exact absurd hv (hword.not_within hgt hjw v)
      obtain ⟨r, hr, hrun⟩ := ih (s.length - (q + w.length)) (by omega) hlength
        (.inr hword.behind) rfl
      have hatEnd := (hs.drop hlength).head_eq_zero
      by_cases hend : mem (string + (q + w.length)) = 0
      · refine ⟨none, fun j hj v hv ↦ ?_, fun fuel hfuel ↦ ?_⟩
        · rcases Nat.lt_or_ge j (q + w.length) with hlt | hge
          · exact hnone j hj hlt v hv
          · have hout : s[j]? = none := List.getElem?_eq_none_iff.mpr
              ((List.drop_eq_nil_iff.mp (hatEnd.mp hend)).trans hge)
            exact absurd hv (not_isWord_of_blank (fun d hd ↦ by rw [hout] at hd; cases hd) v)
        · obtain ⟨fuel, rfl⟩ := Nat.exists_eq_add_of_le' (show 1 ≤ fuel by omega)
          rw [searchLoop, hblanks fuel (by omega), Option.bind_some, if_neg hne,
            hmatch fuel (by omega), Option.bind_some, haccepts, if_neg Bool.false_ne_true,
            hskip fuel (by omega), Option.bind_some, if_neg (not_not.mpr hend)]
          rfl
      · refine ⟨r, hr.skip (by omega) hnone, fun fuel hfuel ↦ ?_⟩
        obtain ⟨fuel, rfl⟩ := Nat.exists_eq_add_of_le' (show 1 ≤ fuel by omega)
        rw [searchLoop, hblanks fuel (by omega), Option.bind_some, if_neg hne,
          hmatch fuel (by omega), Option.bind_some, haccepts, if_neg Bool.false_ne_true,
          hskip fuel (by omega), Option.bind_some, if_pos hend, hrun fuel (by omega)]

theorem FirstFrom.first {P : List UInt8 → Prop} {r : Option ℕ} (h : FirstFrom P s 0 r) :
    First P s r := by
  cases r with
  | none => exact fun j ↦ h j j.zero_le
  | some i => exact ⟨h.2.1, fun j ↦ h.2.2 j j.zero_le⟩

/-- The search ends, at the first word that the comparison accepts. -/
theorem findToken_spec (hnull : string ≠ 0) (hs : CString mem string s) (ht : CString mem token t) :
    ∃ r, First (fun w ↦ accepts t w = true) s r ∧
      ∃ fuel₀, ∀ fuel ≥ fuel₀, findToken mem fuel string token = some (r.map (string + ·)) := by
  obtain ⟨r, hr, hrun⟩ := searchLoop_spec hs ht s.length.zero_le (.inl rfl)
  refine ⟨r, hr.first, s.length - 0 + s.length + t.length + 2, fun fuel hfuel ↦ ?_⟩
  rw [findToken, if_pos hnull]
  exact hrun fuel (by omega)

theorem FindsRight.first (h : FindsRight mem string token s t) (hnull : string ≠ 0)
    (hs : CString mem string s) (ht : CString mem token t) :
    ∃ r, First (Matches t) s r ∧ First (fun w ↦ accepts t w = true) s r := by
  obtain ⟨r, hr, N, hrun⟩ := h
  obtain ⟨r', hr', N', hrun'⟩ := findToken_spec hnull hs ht
  have hsame := (hrun (N + N') (by omega)).symm.trans (hrun' (N + N') (by omega))
  obtain rfl : r = r' := by
    have hmap := Option.some.inj hsame
    exact Option.map_injective (add_right_injective string) hmap
  exact ⟨r, hr, hr'⟩

/-- A word that breaks off is found unless a word before it matches. -/
theorem FindsRight.earlier (h : FindsRight mem string token s t) (hnull : string ≠ 0)
    (hs : CString mem string s) (ht : CString mem token t) (hw : IsWord s j w) (hstub : Stub t w) :
    ∃ i < j, ∃ v, IsWord s i v ∧ Matches t v := by
  obtain ⟨r, hr, hr'⟩ := h.first hnull hs ht
  have haccepts : accepts t w = true := (accepts_iff hw.ne_nil).mpr (.inr hstub)
  cases r with
  | none => exact absurd haccepts (hr' j w hw)
  | some i =>
    obtain ⟨⟨v, hv, hmatches⟩, -⟩ := hr
    refine ⟨i, ?_, v, hv, hmatches⟩
    rcases Nat.lt_trichotomy i j with hlt | rfl | hgt
    · exact hlt
    · exact absurd (hv.unique hw ▸ hmatches) hstub.not_matches
    · exact absurd haccepts (hr'.2 j hgt w hw)

/-! ### When the search is right -/

theorem findToken_right_iff (hnull : string ≠ 0) (hs : CString mem string s)
    (ht : CString mem token t) :
    FindsRight mem string token s t ↔ ∀ j w, IsWord s j w → Stub t w →
      ∃ i < j, ∃ v, IsWord s i v ∧ Matches t v := by
  constructor
  · intro h j w hw hstub
    exact h.earlier hnull hs ht hw hstub
  · intro h
    obtain ⟨r, hr, hrun⟩ := findToken_spec hnull hs ht
    refine ⟨r, ?_, hrun⟩
    have hmatches : ∀ j w, IsWord s j w → Matches t w → accepts t w = true :=
      fun j w hw hm ↦ (accepts_iff hw.ne_nil).mpr (.inl hm)
    cases r with
    | none => exact fun j w hw hm ↦ hr j w hw (hmatches j w hw hm)
    | some i =>
      obtain ⟨⟨w, hw, haccepts⟩, hbefore⟩ := hr
      refine ⟨⟨w, hw, ?_⟩, fun j hj v hv hm ↦ hbefore j hj v hv (hmatches j v hv hm)⟩
      rcases (accepts_iff hw.ne_nil).mp haccepts with hm | hstub
      · exact hm
      · obtain ⟨j, hj, v, hv, hm⟩ := h i w hw hstub
        exact absurd (hmatches j v hv hm) (hbefore j hj v hv)

/-- A memory with one string at 0x100 and another at 0x200. -/
def bootMemory (s t : List UInt8) : Bytes :=
  fun x ↦ if x < 0x200 then s.getD (x - 0x100) 0 else t.getD (x - 0x200) 0

/-- `b` among `a b`. -/
theorem single_right : FindsRight (bootMemory [0x61, 0x20, 0x62] [0x62]) 0x100 0x200
    [0x61, 0x20, 0x62] [0x62] := by
  refine (findToken_right_iff (by decide) (by decide) (by decide)).mpr fun j w hw hstub ↦ ?_
  rcases List.prefix_cons_iff.mp hstub.1 with hnil | ⟨rest, rfl, hrest⟩
  · exact absurd hnil hw.ne_nil
  · exact absurd (by rw [List.prefix_nil.mp hrest]) hstub.2.1

/-- "debug" -/
def debugOption : List UInt8 := [0x64, 0x65, 0x62, 0x75, 0x67]

/-- "debug_not_implemented" -/
def debugNotImplemented : List UInt8 := debugOption ++
  [0x5f, 0x6e, 0x6f, 0x74, 0x5f, 0x69, 0x6d, 0x70, 0x6c, 0x65, 0x6d, 0x65, 0x6e, 0x74, 0x65, 0x64]

/-- The option `debug` is taken for `debug_not_implemented` too. -/
theorem debug_wrong : CString (bootMemory debugOption debugNotImplemented) 0x100 debugOption ∧
    CString (bootMemory debugOption debugNotImplemented) 0x200 debugNotImplemented ∧
    ¬ FindsRight (bootMemory debugOption debugNotImplemented) 0x100 0x200 debugOption
      debugNotImplemented := by
  refine ⟨by decide, by decide, fun h ↦ ?_⟩
  have hword : IsWord debugOption 0 debugOption :=
    ⟨by decide, by decide, by decide +kernel, .inl rfl, fun c hc ↦ by simp [debugOption] at hc⟩
  obtain ⟨i, hi, -⟩ := h.earlier (by decide) (by decide) (by decide) hword
    ⟨by decide, by decide, by decide⟩
  exact absurd hi (Nat.not_lt_zero i)

end Emu68.Boot
