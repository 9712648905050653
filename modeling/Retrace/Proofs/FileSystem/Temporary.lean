import Mathlib.Data.List.Nodup
import Mathlib.Data.List.Perm.Subperm
import Retrace.Proofs.FileSystem.Operations
import Retrace.Proofs.Text.Utf8

/-!
Temporary files. Their names are names of entries, no two are equal, and the first one that is free
depends only on which of them are taken.
-/
namespace Retrace.FileSystem

open Retrace.Path (IsName dot slash)

variable {fs : FileSystem} {f : Path} {d : Location} {taken taken' : List Bytes} {n k : Nat}

def temporaryChars (n : Nat) : List Char :=
  ".tmp".toList ++ (List.replicate (6 - (Nat.toDigits 10 n).length) '0' ++ Nat.toDigits 10 n)

theorem mem_digits {c : Char}
    (h : c ∈ List.replicate (6 - (Nat.toDigits 10 n).length) '0' ++ Nat.toDigits 10 n) :
    c.isDigit = true := by
  rcases List.mem_append.1 h with h | h
  · rw [List.eq_of_mem_replicate h]; rfl
  · exact Nat.isDigit_of_mem_toDigits (by omega) (by omega) h

theorem toNat_lt_of_isDigit {c : Char} (h : c.isDigit = true) : 48 ≤ c.toNat ∧ c.toNat ≤ 57 := by
  simpa [Char.isDigit, UInt32.le_iff_toNat_le] using h

theorem temporaryName_eq_encode (n : Nat) :
    temporaryName n = Utf8.encode (String.ofList (temporaryChars n)) := by
  rw [temporaryName]
  congr 1
  apply String.toList_injective
  simp [temporaryChars, ← Nat.toList_repr, String.length_toList]

theorem temporaryName_eq (n : Nat) :
    temporaryName n = (temporaryChars n).map fun c => UInt8.ofNat c.toNat := by
  rw [temporaryName_eq_encode, Utf8.encode_ascii]
  intro c hc
  rcases List.mem_append.1 hc with hc | hc
  · have hascii : (".tmp".toList.all fun e => decide (e.toNat < 0x80)) = true := rfl
    exact of_decide_eq_true (List.all_eq_true.1 hascii c hc)
  · have := toNat_lt_of_isDigit (mem_digits hc)
    omega

theorem mem_temporaryName {b : UInt8} (h : b ∈ temporaryName n) :
    b ∈ [46, 116, 109, 112] ∨ 48 ≤ b.toNat ∧ b.toNat ≤ 57 := by
  rw [temporaryName_eq, temporaryChars, List.map_append, List.mem_append] at h
  rcases h with h | h
  · exact .inl h
  · obtain ⟨c, hc, rfl⟩ := List.mem_map.1 h
    have hdigit := toNat_lt_of_isDigit (mem_digits hc)
    right
    simp only [UInt8.toNat_ofNat']
    omega

theorem length_temporaryName (n : Nat) :
    (temporaryName n).length = 4 + max 6 (Nat.toDigits 10 n).length := by
  have htmp : ".tmp".toList.length = 4 := rfl
  rw [temporaryName_eq, List.length_map, temporaryChars, List.length_append, List.length_append,
    List.length_replicate, htmp]
  omega

theorem isName_temporaryName (n : Nat) : IsName (temporaryName n) := by
  have hlen := length_temporaryName n
  refine ⟨?_, ?_, ?_, fun h => ?_⟩
  · intro h; simp [h] at hlen; omega
  · intro h; simp [h] at hlen; omega
  · intro h; simp [h] at hlen; omega
  · rcases mem_temporaryName h with h | h
    · revert h; decide
    · revert h; decide

theorem zero_not_mem_temporaryName (n : Nat) : (0 : UInt8) ∉ temporaryName n := fun h => by
  rcases mem_temporaryName h with h | h
  · revert h; decide
  · revert h; decide

theorem temporaryName_injective : Function.Injective temporaryName := by
  intro n k h
  rw [temporaryName_eq_encode, temporaryName_eq_encode, Utf8.encode_inj, String.ofList_inj,
    temporaryChars, temporaryChars, List.append_cancel_left_eq] at h
  have hvalue : ∀ i, Nat.ofDigitChars 10
      (List.replicate (6 - (Nat.toDigits 10 i).length) '0' ++ Nat.toDigits 10 i) 0 = i := fun i => by
    rw [Nat.ofDigitChars_append, Nat.ofDigitChars_replicate_zero, Nat.mul_zero,
      Nat.ofDigitChars_ten_toDigits]
  have hn := hvalue n
  rw [h, hvalue k] at hn
  exact hn.symm

theorem ne_temporaryName {w : Bytes} {b : UInt8} (hb : w.getLast? = some b) (h : 57 < b.toNat) :
    w ≠ temporaryName n := by
  intro hw
  rw [hw, temporaryName_eq, temporaryChars, List.map_append, List.map_append, ← List.append_assoc,
    List.getLast?_append_of_ne_nil _ (by simp [Nat.toDigits_ne_nil])] at hb
  obtain ⟨c, hc, rfl⟩ := List.mem_map.1 (List.mem_of_getLast? hb)
  have hdigit := toNat_lt_of_isDigit (mem_digits (List.mem_append_right _ hc))
  simp only [UInt8.toNat_ofNat'] at h
  omega

theorem length_temporaryName_mono (h : n ≤ k) :
    (temporaryName n).length ≤ (temporaryName k).length := by
  have hpos : 0 < (Nat.toDigits 10 k).length := Nat.length_toDigits_pos
  have hlt : k < 10 ^ (Nat.toDigits 10 k).length :=
    (Nat.length_toDigits_le_iff (by omega) hpos).1 (Nat.le_refl _)
  have hle : (Nat.toDigits 10 n).length ≤ (Nat.toDigits 10 k).length :=
    (Nat.length_toDigits_le_iff (by omega) hpos).2 (by omega)
  rw [length_temporaryName, length_temporaryName]
  omega

/-! ### The first name that is free -/

theorem freeName_spec (taken : List Bytes) (tries n : Nat) :
    ∃ k, freeName taken tries n = temporaryName k ∧ (∀ i, n ≤ i → i < k → temporaryName i ∈ taken) ∧
      (temporaryName k ∉ taken ∨ k = n + tries) := by
  induction tries generalizing n with
  | zero => exact ⟨n, rfl, fun i h h' => absurd h' (Nat.not_lt.2 h), .inr rfl⟩
  | succ tries ih =>
    rw [freeName]
    split
    · next htaken =>
      obtain ⟨k, hk, hbelow, hfree⟩ := ih (n + 1)
      refine ⟨k, hk, fun i h h' => ?_, hfree.imp_right fun h => by omega⟩
      rcases Nat.eq_or_lt_of_le h with rfl | h
      · simpa using htaken
      · exact hbelow i h h'
    · next hfree => exact ⟨n, rfl, fun i h h' => absurd h' (Nat.not_lt.2 h), .inl (by simpa using hfree)⟩

def IsFirstFree (taken : List Bytes) (k : Nat) : Prop :=
  temporaryName k ∉ taken ∧ ∀ i < k, temporaryName i ∈ taken

theorem exists_isFirstFree (taken : List Bytes) :
    ∃ k, freeName taken taken.length 0 = temporaryName k ∧ IsFirstFree taken k := by
  obtain ⟨k, hk, hbelow, hfree⟩ := freeName_spec taken taken.length 0
  refine ⟨k, hk, hfree.elim id fun hlast hmem => ?_, fun i h => hbelow i (Nat.zero_le i) h⟩
  -- as many names as there are entries and one more cannot all be taken
  rw [Nat.zero_add] at hlast
  have hnames : ((List.range (taken.length + 1)).map temporaryName).Nodup :=
    List.nodup_range.map temporaryName_injective
  have hsub : (List.range (taken.length + 1)).map temporaryName ⊆ taken := by
    intro w hw
    obtain ⟨i, hi, rfl⟩ := List.mem_map.1 hw
    rcases Nat.lt_or_eq_of_le (Nat.le_of_lt_succ (List.mem_range.1 hi)) with h | rfl
    · exact hbelow i (Nat.zero_le i) (hlast ▸ h)
    · exact hlast ▸ hmem
  have := (hnames.subperm hsub).length_le
  rw [List.length_map, List.length_range] at this
  omega

theorem IsFirstFree.unique (h : IsFirstFree taken n) (h' : IsFirstFree taken k) : n = k := by
  rcases Nat.lt_trichotomy n k with hlt | heq | hgt
  · exact absurd (h'.2 n hlt) h.1
  · exact heq
  · exact absurd (h.2 k hgt) h'.1

theorem freeName_congr (h : ∀ i, temporaryName i ∈ taken ↔ temporaryName i ∈ taken') :
    freeName taken taken.length 0 = freeName taken' taken'.length 0 := by
  obtain ⟨n, hn, hfree, hbelow⟩ := exists_isFirstFree taken
  obtain ⟨k, hk, hfree'⟩ := exists_isFirstFree taken'
  have hn' : IsFirstFree taken' n := ⟨fun hc => hfree ((h n).2 hc), fun i hi => (h i).1 (hbelow i hi)⟩
  rw [hn, hk, hn'.unique hfree']

def nextTemporary (fs : FileSystem) (d : Location) : Bytes :=
  freeName (fs.children d) (fs.children d).length 0

theorem nextTemporary_spec (fs : FileSystem) (d : Location) :
    ∃ k, fs.nextTemporary d = temporaryName k ∧ fs.at (fs.nextTemporary d :: d) = none := by
  obtain ⟨k, hk, hfree, -⟩ := exists_isFirstFree (fs.children d)
  refine ⟨k, hk, ?_⟩
  rw [nextTemporary, hk]
  simpa [mem_children] using hfree

theorem nextTemporary_congr {fs' : FileSystem}
    (h : ∀ i, (fs'.at (temporaryName i :: d)).isSome = (fs.at (temporaryName i :: d)).isSome) :
    fs'.nextTemporary d = fs.nextTemporary d :=
  freeName_congr fun i => by rw [mem_children, mem_children, h i]

/-! ### Making a temporary file -/

structure Room (fs : FileSystem) (f : Path) (d : Location) : Prop where
  yields : fs.yields d = true
  short : (fs.nextTemporary d).length ≤ longestName
  fits : (f.join ⟨fs.nextTemporary d⟩).bytes.length < longestPath

instance (fs : FileSystem) (f : Path) (d : Location) : Decidable (Room fs f d) :=
  decidable_of_iff (_ ∧ _ ∧ _) ⟨fun h => ⟨h.1, h.2.1, h.2.2⟩, fun h => ⟨h.1, h.2, h.3⟩⟩

theorem Room.congr {fs' : FileSystem} (hr : Room fs f d) (hd : fs'.at d = fs.at d)
    (h : ∀ i, (fs'.at (temporaryName i :: d)).isSome = (fs.at (temporaryName i :: d)).isSome) :
    Room fs' f d where
  yields := by simpa only [FileSystem.yields, hd] using hr.yields
  short := by rw [nextTemporary_congr h]; exact hr.short
  fits := by rw [nextTemporary_congr h]; exact hr.fits

theorem Leads.aims_temporary (h : Leads fs f d) (hr : Room fs f d) :
    Aims fs f d (fs.nextTemporary d) := by
  obtain ⟨k, hk, -⟩ := fs.nextTemporary_spec d
  refine ⟨h, ?_, ?_, hr.short, hr.fits⟩
  · rw [hk]; exact isName_temporaryName k
  · rw [hk]; exact zero_not_mem_temporaryName k

theorem Room.fits_zero (hr : Room fs f d) : (f.join ⟨temporaryName 0⟩).bytes.length < longestPath := by
  obtain ⟨k, hk, -⟩ := fs.nextTemporary_spec d
  refine Nat.lt_of_le_of_lt ?_ hr.fits
  rw [hk]
  exact Path.length_join_name_mono f (isName_temporaryName 0) (isName_temporaryName k)
    (length_temporaryName_mono (Nat.zero_le k))

theorem Leads.makeTemporary (h : Leads fs f d) (hr : Room fs f d) :
    fs.makeTemporary f =
      .ok (f.join ⟨fs.nextTemporary d⟩, fs.insert (fs.nextTemporary d :: d) (.file 0o600 [])) := by
  have happroach := h.approach (isName_temporaryName 0) hr.fits_zero
  have hshort := Nat.not_lt.2 hr.short
  have hfits := Nat.not_le.2 hr.fits
  rw [nextTemporary] at hshort hfits
  rw [FileSystem.makeTemporary, named_of_noNul h.noNul]
  simp [happroach, hr.yields, hshort, hfits, nextTemporary, bind, Except.bind, pure, Except.pure]

theorem Leads.makeTemporary_error (h : Leads fs f d) (hr : ¬Room fs f d) :
    ∃ err, fs.makeTemporary f = .error (.errno err) := by
  have hname := isName_temporaryName 0
  rw [FileSystem.makeTemporary, named_of_noNul h.noNul]
  by_cases hfits : (f.join ⟨temporaryName 0⟩).bytes.length < longestPath
  · rw [h.approach hname hfits]
    by_cases hy : fs.yields d = true
    · have hlong : longestName < (fs.nextTemporary d).length ∨
          longestPath ≤ (f.join ⟨fs.nextTemporary d⟩).bytes.length := by
        by_contra hc
        push Not at hc
        exact hr ⟨hy, hc.1, hc.2⟩
      rw [nextTemporary] at hlong
      exact ⟨.nameTooLong, by simp [hy, hlong, bind, Except.bind]⟩
    · exact ⟨.denied, by simp [hy, bind, Except.bind]⟩
  · have happroach : fs.approach (f.join ⟨temporaryName 0⟩) = .error .nameTooLong := by
      rw [FileSystem.approach, if_neg (Path.bytes_join_name_ne_nil f hname),
        if_pos (Nat.not_lt.1 hfits)]
    exact ⟨.nameTooLong, by simp [happroach, bind, Except.bind]⟩

end Retrace.FileSystem
