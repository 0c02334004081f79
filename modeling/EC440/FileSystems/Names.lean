import EC440.FileSystems.State
import Mathlib.Data.List.GetD
import Mathlib.Data.List.TakeWhile

/-!
# Names in the directory table

`strcmp` and `strcpy` work on memory, not on an entry's 16 bytes: a name that is
not terminated runs on into the bytes behind it, and a long name is written over
them.  So a name is read and stored in the table as its `64 * 20` bytes.

For names of at most 15 bytes none of this shows: such a name is stored in its own
entry (`strcpy_short`), and an entry that holds a NUL reads as its own bytes
(`nameAt_eq_str`).
-/

namespace EC440.FileSystems

open EC440.Lib

def dirByte (t : Arr 64 DirEntry) (p : Nat) : UInt8 := (t.get (p / 20)).byte (p % 20)

/-- The C string that starts at `dir_table[i].name`. -/
def nameAt (t : Arr 64 DirEntry) (i : Nat) : List UInt8 :=
  ((List.range (1280 - (20 * i + 1))).map (fun k => dirByte t (20 * i + 1 + k))).takeWhile
    (fun b => b != 0)

def strcpy (t : Arr 64 DirEntry) (i : Nat) (name : List UInt8) : Arr 64 DirEntry :=
  Arr.ofFn (fun j => DirEntry.ofBytes (fun d =>
    if 20 * i + 1 ≤ 20 * j + d ∧ 20 * j + d ≤ 20 * i + 1 + name.length then
      name.getD (20 * j + d - (20 * i + 1)) 0
    else dirByte t (20 * j + d)))

/-- The loop over `dir_table` that looks for a name. -/
def findName (t : Arr 64 DirEntry) (name : CString) : Option Nat :=
  (List.range 64).find? (fun i => nameAt t i == name.val)

theorem findName_def (t : Arr 64 DirEntry) (name : CString) :
    findName t name = (List.range 64).find? (fun i => nameAt t i == name.val) := rfl

attribute [irreducible] findName

/-! ### Names that fit -/

/-- The string in an entry's own 16 bytes. -/
def DirEntry.str (e : DirEntry) : List UInt8 :=
  ((List.range 16).map e.name.get).takeWhile (fun b => b != 0)

/-- The entry's name ends inside the entry. -/
def DirEntry.Terminated (e : DirEntry) : Prop := ∃ k, k < 16 ∧ e.name.get k = 0

theorem dirByte_name (t : Arr 64 DirEntry) (i : Nat) {k : Nat} (hk : k < 16) :
    dirByte t (20 * i + 1 + k) = (t.get i).name.get k := by
  have h1 : (20 * i + 1 + k) / 20 = i := by omega
  have h2 : (20 * i + 1 + k) % 20 = k + 1 := by omega
  rw [dirByte, h1, h2, DirEntry.byte, if_neg (by omega), if_pos (by omega)]
  rfl

theorem dirBytes_split (t : Arr 64 DirEntry) {i : Nat} (hi : i < 64) :
    (List.range (1280 - (20 * i + 1))).map (fun k => dirByte t (20 * i + 1 + k))
      = (List.range 16).map (t.get i).name.get
        ++ (List.range (1263 - 20 * i)).map (fun k => dirByte t (20 * i + 1 + (16 + k))) := by
  rw [show 1280 - (20 * i + 1) = 16 + (1263 - 20 * i) by omega, List.range_add,
    List.map_append, List.map_map]
  congr 1
  exact List.map_congr_left fun j hj => dirByte_name t i (List.mem_range.mp hj)

/-- **A terminated entry reads as its own name.** -/
theorem nameAt_eq_str {t : Arr 64 DirEntry} {i : Nat} (hi : i < 64)
    (h : (t.get i).Terminated) : nameAt t i = (t.get i).str := by
  obtain ⟨k, hk, h0⟩ := h
  have hmem : (0 : UInt8) ∈ (List.range 16).map (t.get i).name.get :=
    List.mem_map.mpr ⟨k, List.mem_range.mpr hk, h0⟩
  rw [nameAt, dirBytes_split t hi, DirEntry.str, List.takeWhile_append, if_neg]
  intro hlen
  rw [← (List.takeWhile_prefix (fun b : UInt8 => b != 0)).eq_of_length hlen] at hmem
  exact absurd (List.mem_takeWhile_imp hmem) (by decide)

/-- A short string is read only from an entry that is terminated. -/
theorem terminated_of_nameAt {t : Arr 64 DirEntry} {i : Nat} (hi : i < 64)
    (h : (nameAt t i).length ≤ 15) : (t.get i).Terminated := by
  by_contra hn
  have hne : ∀ k, k < 16 → (t.get i).name.get k ≠ 0 := fun k hk h0 => hn ⟨k, hk, h0⟩
  have hpre : (List.range 16).map (t.get i).name.get <+: nameAt t i := by
    rw [nameAt, dirBytes_split t hi, List.takeWhile_append_of_pos]
    · exact List.prefix_append _ _
    · intro b hb
      obtain ⟨k, hk, rfl⟩ := List.mem_map.mp hb
      simpa using hne k (List.mem_range.mp hk)
  have := hpre.length_le
  simp only [List.length_map, List.length_range] at this
  omega

/-- The bytes of a name and the zeros after it. -/
def padName (name : List UInt8) : Arr 16 UInt8 := Arr.ofFn (fun k => name.getD k 0)

/-- **A name of at most 15 bytes is stored in its own entry.** -/
theorem strcpy_short {t : Arr 64 DirEntry} {i : Nat} {name : List UInt8} (hi : i < 64)
    (hlen : name.length ≤ 15) (hz : (t.get i).name = Arr.fill 0) :
    strcpy t i name = t.set i { t.get i with name := padName name } := by
  refine Arr.ext_get ?_
  intro j hj
  have hdiv : ∀ d, d < 20 → (20 * j + d) / 20 = j := fun d hd => by omega
  have hmod : ∀ d, d < 20 → (20 * j + d) % 20 = d := fun d hd => by omega
  rw [strcpy, Arr.get_ofFn _ hj]
  by_cases hji : j = i
  · subst hji
    rw [Arr.get_set_self _ hi]
    refine DirEntry.ofBytes_eq ?_
    intro d hd
    by_cases hin : 20 * j + 1 ≤ 20 * j + d ∧ 20 * j + d ≤ 20 * j + 1 + name.length
    · rw [if_pos hin, DirEntry.byte, if_neg (by omega), if_pos (by omega), padName,
        Arr.get_ofFn _ (by omega)]
      congr 1
      omega
    · rw [if_neg hin, dirByte, hdiv d hd, hmod d hd, DirEntry.byte, DirEntry.byte]
      by_cases hname : 1 ≤ d ∧ d < 17
      · -- behind the name the entry held zeros already
        rw [if_neg (by omega), if_pos hname.2, if_neg (by omega), if_pos hname.2, hz, padName,
          Arr.get_ofFn _ (by omega), Arr.get_fill _ (by omega),
          List.getD_eq_default _ _ (by omega)]
      · by_cases hd0 : d = 0
        · rw [if_pos hd0, if_pos hd0]
        · simp only [hd0, if_false, show ¬ d < 17 by omega]
  · rw [Arr.get_set_ne _ hji]
    refine DirEntry.ofBytes_eq ?_
    intro d hd
    rw [if_neg (by omega), dirByte, hdiv d hd, hmod d hd]

theorem padName_terminated {e : DirEntry} {name : List UInt8} (hlen : name.length ≤ 15)
    (he : e.name = padName name) : e.Terminated := by
  refine ⟨name.length, by omega, ?_⟩
  rw [he, padName, Arr.get_ofFn _ (by omega), List.getD_eq_default _ _ (le_refl _)]

theorem str_padName {e : DirEntry} {name : CString} (hlen : name.val.length ≤ 15)
    (he : e.name = padName name.val) : e.str = name.val := by
  have hmap : (List.range 16).map e.name.get
      = name.val ++ List.replicate (16 - name.val.length) 0 := by
    refine List.ext_getElem (by simp; omega) ?_
    intro k h1 h2
    have hk : k < 16 := by simpa using h1
    rw [List.getElem_map, List.getElem_range, he, padName, Arr.get_ofFn _ hk,
      List.getD_eq_getElem?_getD]
    by_cases hkn : k < name.val.length
    · rw [List.getElem_append_left hkn, List.getElem?_eq_getElem hkn, Option.getD_some]
    · rw [List.getElem_append_right (by omega), List.getElem?_eq_none (by omega),
        List.getElem_replicate, Option.getD_none]
  rw [DirEntry.str, hmap, List.takeWhile_append_of_pos (fun b hb => by simpa using name.2 b hb)]
  simp

end EC440.FileSystems
