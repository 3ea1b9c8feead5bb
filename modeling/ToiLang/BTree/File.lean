import ToiLang.BTree.Sound

namespace ToiLang

variable {db : BTreeDb} {file : Bytes} {m : List LeafEntry}

/-- `db_read_page` on a file: the page that is in it with all its bytes. -/
def filePage (file : Bytes) (pageId : UInt32) : Option Bytes :=
  let page := (file.drop (pageId.toNat * btreePageSize)).take btreePageSize
  if page.length = btreePageSize then some page else none

/-- `db_write_page` on a file: a page behind the end of the file comes after zeros. -/
def writeFilePage (file : Bytes) (pageId : UInt32) (page : Bytes) : Bytes :=
  let off := pageId.toNat * btreePageSize
  setBytes (file ++ List.replicate (off - file.length) 0) off page

/-- The database that `btree_open_file` makes of the bytes of a file. The size is taken in 32 bits;
an empty file becomes one with an empty root. -/
def btreeOpenFile (file : Bytes) : Option BTreeDb :=
  if file.length = 0 then some emptyDb
  else if file.length % 2 ^ 32 < btreePageSize then none
  else
    match filePage file 0 with
    | none => none
    | some header =>
      if header.take 4 ≠ btreeMagic ∨ header.getD 4 0 ≠ btreeVersion then none
      else
        let rootPage := rdU32 (header.drop 8)
        let pageCount := rdU32 (header.drop 12)
        if rootPage = 0 ∨ pageCount < 2 ∨ pageCount ≤ rootPage then none
        else some ⟨filePage file, rootPage, pageCount, rdU32 (header.drop 16)⟩

/-- The pages of the database are what the file is made of. -/
structure BTreeDb.InFile (db : BTreeDb) (file : Bytes) : Prop where
  pages : filePage file = db.pages
  whole : ∃ n, n ≤ UInt32.size ∧ file.length = n * btreePageSize

theorem filePage_eq_some {p : UInt32} {page : Bytes} (h : filePage file p = some page) :
    page.length = 4096 ∧ p.toNat * 4096 + 4096 ≤ file.length := by
  unfold filePage at h
  dsimp only at h
  split at h
  case isTrue hlen =>
    cases Option.some.inj h
    have hlen' := hlen
    rw [List.length_take, List.length_drop] at hlen'
    unfold btreePageSize at hlen hlen'
    exact ⟨hlen, by omega⟩
  case isFalse => cases h

theorem filePage_isSome {p : UInt32} :
    (filePage file p).isSome ↔ p.toNat * 4096 + 4096 ≤ file.length := by
  unfold filePage
  dsimp only
  rw [List.length_take, List.length_drop]
  unfold btreePageSize
  split
  case isTrue h => exact iff_of_true rfl (by omega)
  case isFalse h => exact iff_of_false (fun hn => nomatch hn) (by omega)

/-- The file has as many bytes as the pages of a sound database. -/
theorem BTreeDb.InFile.length (h : db.InFile file) (hs : db.Sound) :
    file.length = db.pageCount.toNat * 4096 := by
  obtain ⟨hpages, n, hn, hlen⟩ := h
  have hhas (p : UInt32) : p.toNat * 4096 + 4096 ≤ file.length ↔ p < db.pageCount := by
    rw [← hs.extent p, BTreeDb.Has, ← hpages]
    exact filePage_isSome.symm
  have hlt : db.pageCount.toNat < UInt32.size := db.pageCount.toNat_lt
  unfold btreePageSize at hlen
  unfold UInt32.size at hn hlt
  rcases lt_trichotomy n db.pageCount.toNat with hlt' | heq | hgt
  · have hp : (UInt32.ofNat n).toNat = n := UInt32.toNat_ofNat_of_lt (by unfold UInt32.size; omega)
    have hin := (hhas (UInt32.ofNat n)).mpr (UInt32.lt_iff_toNat_lt.mpr (by omega))
    rw [hp, hlen] at hin
    exact absurd hin (by omega)
  · rw [hlen, heq]
  · have hin : db.pageCount.toNat * 4096 + 4096 ≤ file.length := by
      rw [hlen, ← Nat.succ_mul]
      exact Nat.mul_le_mul_right _ hgt
    exact absurd ((hhas db.pageCount).mp hin) (UInt32.lt_irrefl _)

/-- With a page under each id, the file has 2 ^ 44 bytes. -/
theorem BTreeDb.InFile.length_full (h : db.InFile file) (hfull : db.Full) :
    file.length = 2 ^ 32 * 4096 := by
  obtain ⟨hpages, n, hn, hlen⟩ := h
  have hlast : (4294967295 : UInt32).toNat * 4096 + 4096 ≤ file.length := by
    refine filePage_isSome.mp ?_
    rw [hpages]
    exact hfull _
  have hnat : (4294967295 : UInt32).toNat = 4294967295 := rfl
  rw [hnat] at hlast
  unfold btreePageSize at hlen
  unfold UInt32.size at hn
  have heq : n = 4294967296 := by omega
  rw [hlen, heq]
  decide

theorem btreeOpenFile_multiple (h : 2 ^ 32 ∣ file.length) (hne : file.length ≠ 0) :
    btreeOpenFile file = none := by
  have hmod : file.length % 2 ^ 32 = 0 := Nat.mod_eq_zero_of_dvd h
  unfold btreeOpenFile
  rw [if_neg hne, if_pos (by rw [hmod]; decide)]

/-- What is read back from the file of a sound database. -/
theorem BTreeDb.InFile.reopen (h : db.InFile file) (hs : db.Sound) (hsize : ¬ 2 ^ 32 ∣ file.length) :
    btreeOpenFile file = some db := by
  have hlen := h.length hs
  have hcount : 2 ≤ db.pageCount.toNat := UInt32.le_iff_toNat_le.mp hs.count
  have hne : file.length ≠ 0 := by omega
  have hmod : ¬ file.length % 2 ^ 32 < btreePageSize := by
    rw [Nat.dvd_iff_mod_eq_zero] at hsize
    unfold btreePageSize
    omega
  have hheader : filePage file 0 = some (headerPage db) := by
    rw [h.pages]
    exact hs.header
  obtain ⟨-, hmagic, hversion, hroot, hpages, hfree⟩ := headerPage_spec db
  have hbounds : ¬ (db.rootPage = 0 ∨ db.pageCount < 2 ∨ db.pageCount ≤ db.rootPage) := by
    rintro (h0 | hlt | hle)
    · exact hs.root.1 h0
    · exact absurd hs.count (UInt32.not_le.mpr hlt)
    · exact absurd ((hs.extent _).mp hs.root.2) (UInt32.not_lt.mpr hle)
  unfold btreeOpenFile
  rw [if_neg hne, if_neg hmod, hheader]
  dsimp only
  rw [if_neg (by rw [hmagic, hversion]; simp), hroot, hpages, hfree, if_neg hbounds, h.pages]

/-- The `i`-th block of `s` bytes. -/
def blockAt (s : Nat) (file : Bytes) (i : Nat) : Bytes := (file.drop (i * s)).take s

section Blocks

variable {s k i : Nat} {a b : Bytes}

theorem blockAt_append_left (ha : a.length = k * s) (hi : i < k) :
    blockAt s (a ++ b) i = blockAt s a i := by
  have hle : (i + 1) * s ≤ a.length := ha ▸ Nat.mul_le_mul_right _ hi
  rw [Nat.succ_mul] at hle
  unfold blockAt
  rw [List.drop_append_of_le_length (by omega), List.take_append_of_le_length]
  rw [List.length_drop]
  omega

theorem blockAt_append_right (ha : a.length = k * s) (b : Bytes) (i : Nat) :
    blockAt s (a ++ b) (k + i) = blockAt s b i := by
  unfold blockAt
  rw [Nat.add_mul, ← ha, ← List.drop_drop, List.drop_left]

theorem blockAt_drop (s : Nat) (a : Bytes) (k i : Nat) :
    blockAt s (a.drop (k * s)) i = blockAt s a (k + i) := by
  unfold blockAt
  rw [List.drop_drop, Nat.add_mul]

theorem blockAt_zero (ha : a.length = s) (b : Bytes) : blockAt s (a ++ b) 0 = a := by
  unfold blockAt
  rw [Nat.zero_mul, List.drop_zero, ← ha, List.take_left]

/-- One block is written over another, or behind the last one. -/
theorem blockAt_write {page : Bytes} (hk : k * s ≤ a.length) (hp : page.length = s) (i : Nat) :
    blockAt s (a.take (k * s) ++ (page ++ a.drop ((k + 1) * s))) i =
      if i = k then page else blockAt s a i := by
  have htake : (a.take (k * s)).length = k * s := by
    rw [List.length_take]
    omega
  rcases lt_trichotomy i k with hlt | heq | hgt
  · have hold := blockAt_append_left (b := a.drop (k * s)) htake hlt
    rw [List.take_append_drop] at hold
    rw [blockAt_append_left htake hlt, if_neg (by omega), hold]
  · have hnew := blockAt_append_right htake (page ++ a.drop ((k + 1) * s)) 0
    rw [Nat.add_zero k, blockAt_zero hp] at hnew
    rw [if_pos heq, heq, hnew]
  · obtain ⟨j, hj⟩ := Nat.exists_eq_add_of_le (Nat.succ_le_of_lt hgt)
    rw [if_neg (by omega), hj, Nat.succ_eq_add_one, Nat.add_assoc, blockAt_append_right htake,
      blockAt_append_right (by omega), blockAt_drop, Nat.add_assoc]

theorem write_length {page : Bytes} (hk : k * s ≤ a.length) (hp : page.length = s) :
    (a.take (k * s) ++ (page ++ a.drop ((k + 1) * s))).length = max a.length ((k + 1) * s) := by
  simp only [List.length_append, List.length_take, List.length_drop, hp]
  rw [Nat.succ_mul]
  omega

/-- Blocks, one behind the other. -/
theorem blockAt_flatten {block : Nat → Bytes} (n : Nat) (h : ∀ i, i < n → (block i).length = s) :
    ((List.range n).map block).flatten.length = n * s ∧
      ∀ i, i < n → blockAt s ((List.range n).map block).flatten i = block i := by
  induction n with
  | zero => exact ⟨(Nat.zero_mul s).symm, fun i hi => absurd hi (Nat.not_lt_zero i)⟩
  | succ n ih =>
    obtain ⟨hlen, hat⟩ := ih fun i hi => h i (by omega)
    have hlast := h n (by omega)
    rw [List.range_succ, List.map_append, List.flatten_append, List.map_singleton,
      List.flatten_singleton]
    refine ⟨by rw [List.length_append, hlen, hlast, Nat.succ_mul], fun i hi => ?_⟩
    by_cases hin : i < n
    · rw [blockAt_append_left hlen hin, hat i hin]
    · have hi' : i = n := by omega
      have hnew := blockAt_append_right hlen (block n ++ []) 0
      rw [Nat.add_zero n, blockAt_zero hlast, List.append_nil] at hnew
      rw [hi', hnew]

end Blocks

theorem filePage_eq (file : Bytes) (p : UInt32) :
    filePage file p = if (blockAt btreePageSize file p.toNat).length = btreePageSize then
      some (blockAt btreePageSize file p.toNat) else none := rfl

/-- A page that exists, or is the next one, is written to the file. -/
theorem BTreeDb.InFile.writePage {p : UInt32} {page : Bytes} (h : db.InFile file)
    (hp : p.toNat * btreePageSize ≤ file.length) (hlen : page.length = btreePageSize) :
    (db.writePage p page).InFile (writeFilePage file p page) := by
  obtain ⟨hpages, n, hn, hfile⟩ := h
  have hplt : p.toNat < UInt32.size := p.toNat_lt
  have hnew : writeFilePage file p page =
      file.take (p.toNat * btreePageSize) ++
        (page ++ file.drop ((p.toNat + 1) * btreePageSize)) := by
    have hpad : p.toNat * btreePageSize - file.length = 0 := Nat.sub_eq_zero_of_le hp
    unfold writeFilePage
    dsimp only
    rw [hpad, List.replicate_zero, List.append_nil, setBytes, List.append_assoc, hlen,
      Nat.succ_mul]
  refine ⟨funext fun q => ?_, max n (p.toNat + 1), max_le hn hplt, ?_⟩
  · rw [writePage_pages, filePage_eq, hnew, blockAt_write hp hlen]
    by_cases hq : q = p
    · rw [if_pos (congrArg UInt32.toNat hq), if_pos hlen, hq, Function.update_self]
    · rw [if_neg fun he => hq (UInt32.toNat_inj.mp he), Function.update_of_ne hq, ← hpages,
        filePage_eq]
  · rw [hnew, write_length hp hlen, hfile]
    rcases le_total n (p.toNat + 1) with hle | hle
    · rw [max_eq_right hle, max_eq_right (Nat.mul_le_mul_right _ hle)]
    · rw [max_eq_left hle, max_eq_left (Nat.mul_le_mul_right _ hle)]

/-- Pages of full size whose ids begin with 0 and have no gap are a file. -/
theorem BTreeDb.exists_inFile {n : Nat} (hn : n ≤ UInt32.size)
    (hhas : ∀ p, db.Has p ↔ p.toNat < n)
    (hsized : ∀ p page, db.pages p = some page → page.length = 4096) : ∃ file, db.InFile file := by
  let page (i : Nat) : Bytes := (db.pages (UInt32.ofNat i)).getD []
  have hpage (i : Nat) (hi : i < n) :
      db.pages (UInt32.ofNat i) = some (page i) ∧ (page i).length = btreePageSize := by
    have hnat : (UInt32.ofNat i).toNat = i := UInt32.toNat_ofNat_of_lt (hi.trans_le hn)
    obtain ⟨bytes, hbytes⟩ := Option.isSome_iff_exists.mp ((hhas (UInt32.ofNat i)).mpr (by omega))
    have hsome : db.pages (UInt32.ofNat i) = some (page i) := by
      show _ = some ((db.pages (UInt32.ofNat i)).getD [])
      rw [hbytes]
      rfl
    exact ⟨hsome, hsized _ _ hsome⟩
  obtain ⟨hlen, hat⟩ := blockAt_flatten n fun i hi => (hpage i hi).2
  refine ⟨_, funext fun p => ?_, n, hn, hlen⟩
  by_cases hp : p.toNat < n
  · obtain ⟨hsome, hpl⟩ := hpage p.toNat hp
    rw [UInt32.ofNat_toNat] at hsome
    rw [filePage_eq, hat p.toNat hp, if_pos hpl, hsome]
  · have hnone : db.pages p = none :=
      Option.not_isSome_iff_eq_none.mp fun h => hp ((hhas p).mp h)
    rw [hnone]
    refine Option.not_isSome_iff_eq_none.mp fun h => hp ?_
    have hle := filePage_isSome.mp h
    rw [hlen, ← Nat.succ_mul] at hle
    exact Nat.le_of_mul_le_mul_right hle (by decide)

/-- There is a file of the database in each run. -/
theorem BTreeRun.exists_inFile {ok : BTreeCall → BTreeDb → Prop} (h : BTreeRun ok db m) :
    ∃ file, db.InFile file := by
  obtain ⟨hfull | ⟨hs, -⟩, hsized⟩ := h.sound
  · exact db.exists_inFile le_rfl (fun p => iff_of_true (hfull p) p.toNat_lt) hsized
  · exact db.exists_inFile db.pageCount.toNat_lt.le
      (fun p => (hs.extent p).trans UInt32.lt_iff_toNat_lt) hsized

namespace SampleTree

/-- The put that fails, time after time: each one takes a page, which is lost. -/
theorem leaking_run (k : Nat) (hk : k < 2 ^ 31) : ∃ db leaked,
    BTreeRun (fun _ _ => True) db [binding 97 2000, binding 121 0, binding 122 0] ∧
      db.Represents (.leaf 1 [binding 97 2000, binding 121 0, binding 122 0])
        ⟨[], UInt32.ofNat (k + 2), leaked⟩ := by
  induction k with
  | zero =>
    obtain ⟨db, hrun, hrep⟩ := three_keys
    exact ⟨db, [], hrun, hrep⟩
  | succ k ih =>
    obtain ⟨db, leaked, hrun, hrep⟩ := ih (by omega)
    have hnat : (UInt32.ofNat (k + 2)).toNat = k + 2 :=
      UInt32.toNat_ofNat_of_lt (by unfold UInt32.size; omega)
    have hroom : Pool.HasRoom ⟨[], UInt32.ofNat (k + 2), leaked⟩ 1 := by
      show (UInt32.ofNat (k + 2)).toNat + 1 < UInt32.size
      rw [hnat]
      unfold UInt32.size
      omega
    obtain ⟨db', hfail, hrep'⟩ := btreePut_leaks hrep three_keys_leak (letter_valid 98)
      (text_valid (by decide)) hroom
    have hnext : UInt32.ofNat (k + 2) + 1 = UInt32.ofNat (k + 1 + 2) := by
      rw [← UInt32.ofNat_one, ← UInt32.ofNat_add]
    have hpool : (Pool.alloc ⟨[], UInt32.ofNat (k + 2), leaked⟩).2.leak
        (Pool.alloc ⟨[], UInt32.ofNat (k + 2), leaked⟩).1 =
          ⟨[], UInt32.ofNat (k + 1 + 2), UInt32.ofNat (k + 2) :: leaked⟩ := by
      rw [← hnext]
      rfl
    rw [hpool] at hrep'
    exact ⟨db', _, hrun.put_failed (letter_valid 98) (text_valid (by decide)) trivial hfail, hrep'⟩

end SampleTree

end ToiLang
