import ToiLang.Http.Split

namespace ToiLang.Http

/-! The paths of files that `serve_dir` gives out. -/

/-- `normalize_mount_path`; `none` is no string. -/
def normalizeMountPath (path : Option Bytes) : Bytes :=
  let p := path.getD []
  let p := if p = [] then [47] else p
  let p := if p.head? = some 47 then p else 47 :: p
  -- the trailing slashes, but not the first byte
  p.take 1 ++ (p.drop 1).rdropWhile (· = 47)

def indexHtml : Bytes := ascii "index.html"

/-- The loop over the parts; `none` where one of them is "..". -/
def cleanParts : List Bytes → Option (List Bytes)
  | [] => some []
  | part :: parts =>
    if part = [] ∨ part = [46] then cleanParts parts
    else if part = [46, 46] then none
    else (cleanParts parts).map (part :: ·)

/-- `string.split(rel, "/")` -/
def splitSlash (rel : Bytes) : List Bytes := splitWith [47] (rel.length + 1) rel

def cleanRelativePath (rawRel : Bytes) : Option Bytes :=
  if rawRel = [] ∨ rawRel = [47] then some indexHtml
  else
    let rel := rawRel.dropWhile (· = 47)
    if rel = [] then some indexHtml
    else (cleanParts (splitSlash rel)).map fun out => if out = [] then indexHtml else [47].intercalate out

/-- What `resolve_mount_relative_path` takes for the path; `none` is no string. -/
def requestPath (reqPath : Option Bytes) : Bytes :=
  let path := reqPath.getD []
  if path = [] then [47] else path

def resolveMountRelativePath (reqPath : Option Bytes) (mountPath : Bytes) : Option Bytes :=
  let path := requestPath reqPath
  if mountPath = [47] then cleanRelativePath path
  else if path = mountPath then some indexHtml
  else
    let pre := mountPath ++ [47]
    if path.take pre.length ≠ pre then none else cleanRelativePath (path.drop pre.length)

def joinPath (base rel : Bytes) : Bytes :=
  if base = [] then rel
  else if base.getLast? = some 47 then base ++ rel
  else base ++ 47 :: rel

/-- The file that `serve_mount_file` looks for. -/
def mountFile (isdir : Bytes → Bool) (dirPath rel : Bytes) : Bytes :=
  let filePath := joinPath dirPath rel
  if isdir filePath then joinPath filePath indexHtml else filePath

/-- The segments of a path, whatever bytes it has. -/
def segments (path : Bytes) : List Bytes := path.splitOn 47

def Proper (segment : Bytes) : Prop := segment ≠ [] ∧ segment ≠ [46] ∧ segment ≠ [46, 46]

instance (segment : Bytes) : Decidable (Proper segment) :=
  inferInstanceAs (Decidable (segment ≠ [] ∧ segment ≠ [46] ∧ segment ≠ [46, 46]))

/-- The path is the mount or goes on with a slash behind it. -/
def Under (path mountPath : Bytes) : Prop := mountPath = [47] ∨ path = mountPath ∨ mountPath ++ [47] <+: path

/-- What a path has behind its mount. -/
def behindMount (path mountPath : Bytes) : Bytes :=
  if mountPath = [47] then path else path.drop (mountPath.length + 1)

/-- The segments that are left of a path without "..". -/
def cleaned (rest : Bytes) : Bytes :=
  match (segments rest).filter Proper with
  | [] => indexHtml
  | kept => [47].intercalate kept

/-- A path below a directory: it starts with the directory, the rest is cut off at a slash, and no
segment of the rest leads up. -/
def Within (dirPath path : Bytes) : Prop :=
  ∃ tail, path = dirPath ++ tail ∧
    (dirPath = [] ∨ dirPath.getLast? = some 47 ∨ tail.head? = some 47) ∧ [46, 46] ∉ segments tail

structure Confined (reqPath : Option Bytes) (mountPath : Bytes) : Prop where
  under : ∀ rel, resolveMountRelativePath reqPath mountPath = some rel →
    Under (requestPath reqPath) mountPath ∧ (∀ s ∈ segments rel, Proper s) ∧
      ∀ isdir dirPath, Within dirPath (mountFile isdir dirPath rel)
  exact : Under (requestPath reqPath) mountPath →
    [46, 46] ∉ segments (behindMount (requestPath reqPath) mountPath) →
      resolveMountRelativePath reqPath mountPath = some (cleaned (behindMount (requestPath reqPath) mountPath))

/-- Behind its first zero byte the rest has only segments that may be served, or it is refused for a
segment in front of that byte. -/
def ClearBehindZero (rest : Bytes) : Prop :=
  [46, 46] ∈ (segments (rest.takeWhile (· ≠ 0))).dropLast ∨
    ∀ s ∈ (segments (rest.dropWhile (· ≠ 0))).tail, Proper s

theorem segments_append (a b : Bytes) : segments (a ++ 47 :: b) = segments a ++ segments b :=
  List.splitOn_append_cons_self a b

theorem segments_single {s : Bytes} (h : (47 : UInt8) ∉ s) : segments s = [s] := List.splitOn_eq_singleton h

theorem segments_cons (c : UInt8) (s : Bytes) :
    segments (c :: s) = if c = 47 then [] :: segments s else (segments s).modifyHead (c :: ·) :=
  splitOn_cons c s

theorem segments_behind {a z : Bytes} {front : List Bytes} {last : Bytes} (h : segments a = front ++ [last]) :
    segments (a ++ z) = front ++ (segments z).modifyHead (last ++ ·) :=
  splitOn_behind h

/-- The parts that the code looks at: the segments in front of the first zero byte, the last of them
with all that stands behind. -/
theorem splitSlash_parts (s : Bytes) {front : List Bytes} {last : Bytes}
    (h : segments (s.takeWhile (· ≠ 0)) = front ++ [last]) :
    splitSlash s = front ++ [last ++ s.dropWhile (· ≠ 0)] :=
  splitWith_parts s h

theorem cleanParts_eq (parts : List Bytes) :
    cleanParts parts = if [46, 46] ∈ parts then none else some (parts.filter Proper) := by
  induction parts with
  | nil => rfl
  | cons part parts ih =>
    rw [cleanParts, ih]
    by_cases hskip : part = [] ∨ part = [46]
    · have hup : [46, 46] ≠ part := by rintro rfl; simp at hskip
      have hproper : ¬Proper part := by
        rintro ⟨hne, hdot, -⟩
        exact hskip.elim hne hdot
      rw [if_pos hskip, List.filter_cons_of_neg (by simpa using hproper)]
      simp [hup]
    · rw [if_neg hskip]
      by_cases hup : part = [46, 46]
      · subst hup
        rw [if_pos rfl, if_pos List.mem_cons_self]
      · have hproper : Proper part := ⟨fun h => hskip (.inl h), fun h => hskip (.inr h), hup⟩
        have hmem : [46, 46] ∈ part :: parts ↔ [46, 46] ∈ parts := by
          have hne : [46, 46] ≠ part := fun h => hup h.symm
          simp [hne]
        rw [if_neg hup, List.filter_cons_of_pos (by simpa using hproper)]
        by_cases hin : [46, 46] ∈ parts
        · rw [if_pos hin, if_pos (hmem.mpr hin)]
          rfl
        · rw [if_neg hin, if_neg (fun h => hin (hmem.mp h))]
          rfl

/-- The text of the parts that are kept. -/
def relativeText (out : List Bytes) : Bytes := if out = [] then indexHtml else [47].intercalate out

/-- A slash in front of the rest changes nothing. -/
theorem cleanParts_slash (s : Bytes) : cleanParts (splitSlash (47 :: s)) = cleanParts (splitSlash s) := by
  obtain ⟨front, last, h⟩ : ∃ front last, segments (s.takeWhile (· ≠ 0)) = front ++ [last] :=
    exists_last 47 _
  have hcons : segments ((47 :: s).takeWhile (· ≠ 0)) = ([] :: front) ++ [last] := by
    rw [List.takeWhile_cons_of_pos (by decide), segments_cons, if_pos rfl, h, List.cons_append]
  rw [splitSlash_parts s h, splitSlash_parts _ hcons, List.dropWhile_cons_of_pos (by decide),
    List.cons_append, cleanParts, if_pos (.inl rfl)]

theorem cleanParts_slashes (s : Bytes) :
    cleanParts (splitSlash (s.dropWhile (· = 47))) = cleanParts (splitSlash s) := by
  induction s with
  | nil => rfl
  | cons c s ih =>
    by_cases hc : c = 47
    · subst hc
      rw [List.dropWhile_cons_of_pos (by simp), ih, cleanParts_slash]
    · rw [List.dropWhile_cons_of_neg (by simpa using hc)]

theorem cleanRelativePath_eq (rest : Bytes) :
    cleanRelativePath rest = (cleanParts (splitSlash rest)).map relativeText := by
  have hempty : (cleanParts (splitSlash [])).map relativeText = some indexHtml := rfl
  unfold cleanRelativePath
  by_cases hone : rest = [] ∨ rest = [47]
  · rw [if_pos hone]
    rcases hone with rfl | rfl
    · exact hempty.symm
    · rw [cleanParts_slash, hempty]
  · rw [if_neg hone, ← cleanParts_slashes rest]
    dsimp only
    by_cases hrel : rest.dropWhile (· = 47) = []
    · rw [if_pos hrel, hrel, hempty]
    · rw [if_neg hrel]
      rfl

/-- Segments without slashes, put together. -/
theorem segments_intercalate {out : List Bytes} {s : Bytes} (hout : ∀ part ∈ out, (47 : UInt8) ∉ part) :
    segments ([47].intercalate (out ++ [s])) = out ++ segments s := by
  induction out with
  | nil => simp
  | cons part out ih =>
    have hne : out ++ [s] ≠ [] := by simp
    obtain ⟨x, xs, hx⟩ := List.exists_cons_of_ne_nil hne
    have hrest := ih fun p hp => hout p (List.mem_cons_of_mem _ hp)
    rw [hx] at hrest
    have htext : ([47] : Bytes).intercalate (part :: x :: xs) = part ++ 47 :: [47].intercalate (x :: xs) := by
      rw [List.intercalate_cons_cons]
      simp
    rw [List.cons_append, hx, htext, segments_append, hrest, segments_single (hout part List.mem_cons_self)]
    rfl

theorem segments_free {s part : Bytes} (h : part ∈ segments s) : (47 : UInt8) ∉ part := by
  induction s generalizing part with
  | nil =>
    rw [List.mem_singleton.mp h]
    simp
  | cons c s ih =>
    rw [segments_cons] at h
    split_ifs at h with hc
    · rcases List.mem_cons.mp h with rfl | h
      · simp
      · exact ih h
    · cases hs : segments s with
      | nil => exact absurd hs (List.splitOn_ne_nil _ _)
      | cons x xs =>
        rw [hs, List.modifyHead_cons] at h
        rcases List.mem_cons.mp h with rfl | h
        · have hx := @ih x (by rw [hs]; exact List.mem_cons_self)
          have hne : (47 : UInt8) ≠ c := fun he => hc he.symm
          simp [hx, hne]
        · exact ih (by rw [hs]; exact List.mem_cons_of_mem _ h)

theorem proper_index : ∀ s ∈ segments indexHtml, Proper s := by
  have hone : segments indexHtml = [indexHtml] := segments_single (by decide)
  rw [hone]
  decide

/-- Parts without slashes are found again in the text of them. -/
theorem proper_relativeText {out : List Bytes} (hout : ∀ part ∈ out, (47 : UInt8) ∉ part)
    (hproper : ∀ part ∈ out, Proper part) : ∀ s ∈ segments (relativeText out), Proper s := by
  unfold relativeText
  by_cases hnil : out = []
  · rw [if_pos hnil]
    exact proper_index
  · rw [if_neg hnil]
    have hsplit := List.splitOn_intercalate 47 hout hnil
    intro s hs
    rw [segments, hsplit] at hs
    exact hproper s hs

theorem cleaned_eq (rest : Bytes) : cleaned rest = relativeText ((segments rest).filter Proper) := by
  unfold cleaned relativeText
  cases (segments rest).filter Proper with
  | nil => rfl
  | cons x xs => rfl

theorem proper_of_zero {s : Bytes} (h : (0 : UInt8) ∈ s) : Proper s := by
  refine ⟨?_, ?_, ?_⟩
  all_goals
    rintro rfl
    simp at h

/-- What is made of the rest behind the mount is clean exactly where nothing behind a zero byte is
overlooked. -/
theorem cleanRelativePath_iff (rest : Bytes) :
    ((∀ rel, cleanRelativePath rest = some rel → ∀ s ∈ segments rel, Proper s) ∧
      ([46, 46] ∉ segments rest → cleanRelativePath rest = some (cleaned rest))) ↔ ClearBehindZero rest := by
  obtain ⟨front, last, hfront⟩ : ∃ front last, segments (rest.takeWhile (· ≠ 0)) = front ++ [last] :=
    exists_last 47 _
  have hall : segments rest = front ++ (segments (rest.dropWhile (· ≠ 0))).modifyHead (last ++ ·) := by
    have hcut : rest.takeWhile (· ≠ 0) ++ rest.dropWhile (· ≠ 0) = rest := List.takeWhile_append_dropWhile
    rw [← segments_behind hfront, hcut]
  have hfree : ∀ part ∈ front, (47 : UInt8) ∉ part := by
    intro part hp
    exact segments_free (by rw [hfront]; exact List.mem_append_left _ hp)
  rw [cleanRelativePath_eq, splitSlash_parts rest hfront, cleanParts_eq, cleaned_eq, ClearBehindZero, hfront,
    List.dropLast_concat]
  rcases dropWhile_zero rest with hz | hz
  · -- no zero byte: the parts are the segments
    have hnil : segments ([] : Bytes) = [[]] := rfl
    rw [hz, hnil, List.modifyHead_cons] at hall
    rw [hz, ← hall]
    have hclear : ∀ s ∈ (segments ([] : Bytes)).tail, Proper s := by
      rw [hnil]
      simp
    refine iff_of_true ⟨fun rel hrel => ?_, fun hup => ?_⟩ (.inr hclear)
    · split_ifs at hrel
      · cases hrel
      cases Option.some.inj hrel
      refine proper_relativeText (fun part hp => ?_) fun part hp => ?_
      · exact segments_free (List.mem_filter.mp hp).1
      · simpa using (List.mem_filter.mp hp).2
    · rw [if_neg hup]
      rfl
  · obtain ⟨c, z, hcut⟩ := List.exists_cons_of_ne_nil
      (show rest.dropWhile (· ≠ 0) ≠ [] by intro h; rw [h] at hz; cases hz)
    rw [hcut] at hz hall ⊢
    obtain rfl := Option.some.inj hz
    obtain ⟨x, xs, hx⟩ := List.exists_cons_of_ne_nil (List.splitOn_ne_nil (47 : UInt8) z)
    have hsegments : segments (0 :: z) = (0 :: x) :: xs := by
      rw [segments_cons, if_neg (by decide), segments, hx, List.modifyHead_cons]
    rw [hsegments, List.modifyHead_cons] at hall
    rw [hsegments, List.tail_cons]
    have hlast : Proper (last ++ 0 :: z) := proper_of_zero (by simp)
    have hfirst : Proper (last ++ 0 :: x) := proper_of_zero (by simp)
    have hmem : [46, 46] ∈ front ++ [last ++ 0 :: z] ↔ [46, 46] ∈ front := by
      have hne : [46, 46] ≠ last ++ 0 :: z := fun h => hlast.2.2 h.symm
      simp [hne]
    by_cases hup : [46, 46] ∈ front
    · rw [if_pos (hmem.mpr hup)]
      refine iff_of_true ⟨fun rel hrel => (by cases hrel), fun hno => ?_⟩ (.inl hup)
      rw [hall] at hno
      exact absurd (List.mem_append_left _ hup) hno
    · rw [if_neg (fun h => hup (hmem.mp h)), List.filter_append, List.filter_singleton,
        decide_eq_true hlast, cond_true, Option.map_some]
      -- the text of the parts, and its segments
      have hkept : ∀ part ∈ front.filter Proper, (47 : UInt8) ∉ part ∧ Proper part := by
        intro part hp
        obtain ⟨hp, hproper⟩ := List.mem_filter.mp hp
        exact ⟨hfree part hp, by simpa using hproper⟩
      have htext : relativeText (front.filter Proper ++ [last ++ 0 :: z]) =
          [47].intercalate (front.filter Proper ++ [last ++ 0 :: z]) := if_neg (by simp)
      have hsegs : segments ([47].intercalate (front.filter Proper ++ [last ++ 0 :: z])) =
          front.filter Proper ++ (last ++ 0 :: x) :: xs := by
        have hfreeLast : segments last = [] ++ [last] :=
          segments_single (segments_free (by rw [hfront]; exact List.mem_append_right _ List.mem_cons_self))
        rw [segments_intercalate fun part hp => (hkept part hp).1, segments_behind hfreeLast, hsegments]
        rfl
      rw [htext]
      constructor
      · rintro ⟨hproper, -⟩
        have hall' := hproper _ rfl
        rw [hsegs] at hall'
        exact .inr fun s hs => hall' s (List.mem_append_right _ (List.mem_cons_of_mem _ hs))
      · intro hclear
        have hxs := hclear.resolve_left hup
        refine ⟨fun rel hrel => ?_, fun _ => ?_⟩
        · cases Option.some.inj hrel
          rw [hsegs]
          intro s hs
          rcases List.mem_append.mp hs with hs | hs
          · exact (hkept s hs).2
          · rcases List.mem_cons.mp hs with rfl | hs
            · exact hfirst
            · exact hxs s hs
        · have hfilter : (segments rest).filter Proper = front.filter Proper ++ (last ++ 0 :: x) :: xs := by
            rw [hall, List.filter_append]
            congr 1
            refine List.filter_eq_self.mpr fun s hs => decide_eq_true ?_
            rcases List.mem_cons.mp hs with rfl | hs
            · exact hfirst
            · exact hxs s hs
          rw [hfilter, ← hsegs, relativeText, segments, if_neg (List.splitOn_ne_nil _ _),
            List.intercalate_splitOn]

theorem segments_getLast {s : Bytes} (h : ∀ x ∈ segments s, Proper x) : s ≠ [] ∧ s.getLast? ≠ some 47 := by
  refine ⟨?_, fun hlast => ?_⟩
  · rintro rfl
    exact (h [] List.mem_cons_self).1 rfl
  · obtain ⟨t, rfl⟩ := List.getLast?_eq_some_iff.mp hlast
    rw [segments_append] at h
    exact (h [] (List.mem_append_right _ List.mem_cons_self)).1 rfl

/-- A path of proper segments stays below every directory. -/
theorem within_mountFile {rel : Bytes} (h : ∀ s ∈ segments rel, Proper s) (isdir : Bytes → Bool) (dirPath : Bytes) :
    Within dirPath (mountFile isdir dirPath rel) := by
  obtain ⟨hne, hlast⟩ := segments_getLast h
  have hup : [46, 46] ∉ segments rel := fun hmem => (h _ hmem).2.2 rfl
  -- the text behind the directory
  obtain ⟨slash, hjoin, hslash, hcut⟩ : ∃ slash, joinPath dirPath rel = dirPath ++ (slash ++ rel) ∧
      (slash = [] ∨ slash = [47]) ∧ (dirPath = [] ∨ dirPath.getLast? = some 47 ∨ slash = [47]) := by
    unfold joinPath
    by_cases hbase : dirPath = []
    · exact ⟨[], by rw [if_pos hbase, hbase]; rfl, .inl rfl, .inl hbase⟩
    · rw [if_neg hbase]
      by_cases hend : dirPath.getLast? = some 47
      · exact ⟨[], by rw [if_pos hend]; rfl, .inl rfl, .inr (.inl hend)⟩
      · exact ⟨[47], by rw [if_neg hend]; rfl, .inr rfl, .inr (.inr rfl)⟩
  have hsegments : ∀ t : Bytes, [46, 46] ∉ segments t → [46, 46] ∉ segments (slash ++ t) := by
    intro t ht
    rcases hslash with rfl | rfl
    · exact ht
    · rw [List.singleton_append, segments_cons, if_pos rfl]
      simp [ht]
  have hwithin : ∀ t : Bytes, [46, 46] ∉ segments t → Within dirPath (dirPath ++ (slash ++ t)) := by
    intro t ht
    refine ⟨slash ++ t, rfl, ?_, hsegments t ht⟩
    rcases hcut with hcut | hcut | rfl
    · exact .inl hcut
    · exact .inr (.inl hcut)
    · exact .inr (.inr rfl)
  unfold mountFile
  dsimp only
  rw [hjoin]
  split_ifs
  · have hfile : dirPath ++ (slash ++ rel) ≠ [] := by simp [hne]
    have hend : (dirPath ++ (slash ++ rel)).getLast? ≠ some 47 := by
      rw [← List.append_assoc, List.getLast?_append_of_ne_nil _ hne]
      exact hlast
    have htext : joinPath (dirPath ++ (slash ++ rel)) indexHtml = dirPath ++ (slash ++ (rel ++ 47 :: indexHtml)) := by
      rw [joinPath, if_neg hfile, if_neg hend]
      simp
    rw [htext]
    refine hwithin _ ?_
    have hindex : [46, 46] ∉ segments indexHtml := fun hmem => (proper_index _ hmem).2.2 rfl
    rw [segments_append]
    simp [hup, hindex]
  · exact hwithin rel hup

/-- The mount of `serve_dir` is the root, or starts with a slash and does not end with one. -/
theorem normalizeMountPath_shape (path : Option Bytes) :
    normalizeMountPath path = [47] ∨
      (normalizeMountPath path).head? = some 47 ∧ (normalizeMountPath path).getLast? ≠ some 47 := by
  have hfront : ∀ p : Bytes, ∃ t, (if p.head? = some 47 then p else 47 :: p) = 47 :: t := by
    intro p
    split_ifs with hp
    · exact List.head?_eq_some_iff.mp hp
    · exact ⟨p, rfl⟩
  obtain ⟨t, ht⟩ := hfront (if path.getD [] = [] then [47] else path.getD [])
  have hcut : normalizeMountPath path = 47 :: t.rdropWhile (· = 47) := by
    unfold normalizeMountPath
    dsimp only
    rw [ht]
    rfl
  rw [hcut]
  by_cases hnil : t.rdropWhile (· = 47) = []
  · exact .inl (by rw [hnil])
  · refine .inr ⟨rfl, fun hlast => ?_⟩
    have hnot := List.rdropWhile_last_not (fun c : UInt8 => decide (c = 47)) t hnil
    rw [List.getLast?_cons, List.getLast?_eq_some_getLast hnil] at hlast
    exact hnot (by simpa using hlast)

/-- Below a mount the segments of the path begin with those of the mount. -/
theorem Under.segments {path mountPath : Bytes} (h : Under path mountPath) :
    mountPath = [47] ∨ segments mountPath <+: segments path := by
  rcases h with h | rfl | ⟨t, rfl⟩
  · exact .inl h
  · exact .inr (List.prefix_refl _)
  · refine .inr ?_
    rw [List.append_assoc, List.singleton_append, segments_append]
    exact List.prefix_append _ _

/-- The path is resolved by what it has behind the mount, if it is under it. -/
theorem resolve_eq (reqPath : Option Bytes) (mountPath : Bytes) :
    (Under (requestPath reqPath) mountPath ∧ resolveMountRelativePath reqPath mountPath =
      cleanRelativePath (behindMount (requestPath reqPath) mountPath)) ∨
    (¬Under (requestPath reqPath) mountPath ∧ resolveMountRelativePath reqPath mountPath = none) := by
  unfold resolveMountRelativePath behindMount
  dsimp only
  by_cases hroot : mountPath = [47]
  · exact .inl ⟨.inl hroot, by rw [if_pos hroot, if_pos hroot]⟩
  · rw [if_neg hroot, if_neg hroot]
    by_cases hsame : requestPath reqPath = mountPath
    · refine .inl ⟨.inr (.inl hsame), ?_⟩
      rw [if_pos hsame, hsame, List.drop_eq_nil_of_le (Nat.le_succ _)]
      rfl
    · rw [if_neg hsame]
      by_cases hpre : mountPath ++ [47] <+: requestPath reqPath
      · rw [if_neg (not_not_intro (List.prefix_iff_eq_take.mp hpre).symm), List.length_append]
        exact .inl ⟨.inr (.inr hpre), rfl⟩
      · have htake : (requestPath reqPath).take (mountPath ++ [47]).length ≠ mountPath ++ [47] :=
          fun he => hpre (List.prefix_iff_eq_take.mpr he.symm)
        rw [if_pos htake]
        exact .inr ⟨fun hunder => hunder.elim hroot (fun h => h.elim hsame hpre), rfl⟩

/-- Requests are confined to a mount exactly where no segment behind a zero byte is overlooked. -/
theorem confined_iff (reqPath : Option Bytes) (mountPath : Bytes) :
    Confined reqPath mountPath ↔ (Under (requestPath reqPath) mountPath →
      ClearBehindZero (behindMount (requestPath reqPath) mountPath)) := by
  rcases resolve_eq reqPath mountPath with ⟨hunder, heq⟩ | ⟨hout, hnone⟩
  · rw [← cleanRelativePath_iff]
    constructor
    · rintro ⟨hproper, hexact⟩ -
      rw [heq] at hproper hexact
      exact ⟨fun rel hrel => (hproper rel hrel).2.1, hexact hunder⟩
    · intro h
      obtain ⟨hproper, hexact⟩ := h hunder
      refine ⟨fun rel hrel => ?_, fun _ hup => ?_⟩
      · rw [heq] at hrel
        have hsegs := hproper rel hrel
        exact ⟨hunder, hsegs, fun isdir dirPath => within_mountFile hsegs isdir dirPath⟩
      · rw [heq]
        exact hexact hup
  · refine iff_of_true ⟨fun rel hrel => ?_, fun hunder => absurd hunder hout⟩ fun hunder => absurd hunder hout
    rw [hnone] at hrel
    cases hrel

/-- A zero byte, and the segments behind it lead up. -/
theorem zero_byte_climbs :
    resolveMountRelativePath (some (ascii "/a" ++ 0 :: ascii "/../../etc/passwd")) (ascii "/") =
        some (ascii "a" ++ 0 :: ascii "/../../etc/passwd") ∧
      ¬Confined (some (ascii "/a" ++ 0 :: ascii "/../../etc/passwd")) (ascii "/") := by
  have hrel : resolveMountRelativePath (some (ascii "/a" ++ 0 :: ascii "/../../etc/passwd")) (ascii "/") =
      some (ascii "a" ++ 0 :: ascii "/../../etc/passwd") := by decide
  refine ⟨hrel, fun h => ?_⟩
  have hproper := (h.under _ hrel).2.1 [46, 46]
  have hmem : [46, 46] ∈ segments (ascii "a" ++ 0 :: ascii "/../../etc/passwd") := by decide
  exact (hproper hmem).2.2 rfl

end ToiLang.Http
