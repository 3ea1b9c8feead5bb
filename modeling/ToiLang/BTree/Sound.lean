import ToiLang.BTree.Accounting

namespace ToiLang

variable {db db' : BTreeDb} {key value : BTreeAtom} {p q : UInt32} {P Q : Prop}

def btreeMagic : Bytes := ascii "PBT2"
def btreeVersion : UInt8 := 1

theorem headerPage_spec (db : BTreeDb) :
    (headerPage db).length = 4096 ∧ (headerPage db).take 4 = btreeMagic ∧
      (headerPage db).getD 4 0 = btreeVersion ∧ rdU32 ((headerPage db).drop 8) = db.rootPage ∧
      rdU32 ((headerPage db).drop 12) = db.pageCount ∧
      rdU32 ((headerPage db).drop 16) = db.freeHead := by
  have h₀ : (List.replicate btreePageSize (0 : UInt8)).length = 4096 := List.length_replicate
  unfold headerPage
  dsimp only
  obtain ⟨h₁, s₁, d₁⟩ := setBytes_spec 0 h₀ (show (ascii "PBT2").length = 4 from rfl)
    (by decide)
  obtain ⟨h₂, s₂, d₂⟩ := setBytes_spec 4 h₁ (show [(1 : UInt8)].length = 1 from rfl)
    (by decide)
  obtain ⟨h₃, s₃, d₃⟩ := setBytes_spec 8 h₂ (wrU32_length db.rootPage) (by decide)
  obtain ⟨h₄, s₄, d₄⟩ := setBytes_spec 12 h₃ (wrU32_length db.pageCount) (by decide)
  obtain ⟨h₅, s₅, d₅⟩ := setBytes_spec 16 h₄ (wrU32_length db.freeHead) (by decide)
  refine ⟨h₅, ?_, ?_, rdU32_of_bytesAt ?_, rdU32_of_bytesAt ?_, rdU32_of_bytesAt s₅⟩
  · have hmagic := (d₅ 0 4 (by omega)).trans ((d₄ 0 4 (by omega)).trans ((d₃ 0 4 (by omega)).trans
      ((d₂ 0 4 (by omega)).trans s₁)))
    exact hmagic
  · have hversion := (d₅ 4 1 (by omega)).trans ((d₄ 4 1 (by omega)).trans
      ((d₃ 4 1 (by omega)).trans s₂))
    have hget := bytesAt_getElem? (headerPage db) 4 1 0
    rw [show bytesAt (headerPage db) 4 1 = [1] from hversion, if_pos (by decide)] at hget
    show (headerPage db).getD 4 0 = _
    rw [List.getD_eq_getElem?_getD, ← hget]
    rfl
  · rw [d₅ 8 4 (by omega), d₄ 8 4 (by omega), s₃]
  · rw [d₅ 12 4 (by omega), s₄]

theorem headerPage_length (db : BTreeDb) : (headerPage db).length = 4096 := (headerPage_spec db).1

theorem freePage_length (next : UInt32) : (freePage next).length = 4096 := by
  have hinit := (pageInit_packed pageTypeFree 0).length
  unfold freePage
  rw [setBytes_length (by rw [hinit, wrU32_length]; decide), hinit]

/-- The page of a node has its full size, whatever the node says. -/
theorem nodePage_length {n : NodeData} {page : Bytes} (h : nodePage n = some page) :
    page.length = 4096 := by
  cases n with
  | leaf leftChild entries =>
    obtain ⟨page', hpage', hpacked⟩ := addRecords_packed leafRecord_length encodeLeafRecord_eq
      pageTypeLeaf leftChild (nodePage_size h)
    cases hpage'.symm.trans h
    exact hpacked.length
  | internal leftChild entries =>
    obtain ⟨page', hpage', hpacked⟩ := addRecords_packed internalRecord_length
      encodeInternalRecord_eq pageTypeInternal leftChild (nodePage_size h)
    cases hpage'.symm.trans h
    exact hpacked.length

namespace BTreeDb

/-- There is a page under the id. -/
def Has (db : BTreeDb) (p : UInt32) : Prop := (db.pages p).isSome

/-- There is a page under each id. -/
def Full (db : BTreeDb) : Prop := ∀ p, db.Has p

/-- A page behind the header. -/
def Target (db : BTreeDb) (p : UInt32) : Prop := p ≠ 0 ∧ db.Has p

/-- No page is taken away, and a page that is written has its full size. -/
structure Adds (db db' : BTreeDb) : Prop where
  has : ∀ p, db.Has p → db'.Has p
  sized : ∀ p page, db'.pages p = some page → db.pages p = some page ∨ page.length = 4096

/-- What can be on a page behind the header: zeros, a free page, or the records of a node. -/
inductive Wrote (db : BTreeDb) : Bytes → Prop
  | blank : Wrote db (List.replicate btreePageSize 0)
  | free {next : UInt32} (h : db.Has next) : Wrote db (freePage next)
  | node {n : NodeData} {page : Bytes} (hv : n.Valid) (hc : ∀ q ∈ n.children, db.Target q)
      (h : nodePage n = some page) : Wrote db page

/-- The header says what the database is in memory, and pointers lead to pages. -/
structure Sound (db : BTreeDb) : Prop where
  header : db.pages 0 = some (headerPage db)
  root : db.Target db.rootPage
  free : db.Has db.freeHead
  count : 2 ≤ db.pageCount
  extent : ∀ p, db.Has p ↔ p < db.pageCount
  wrote : ∀ p page, p ≠ 0 → db.pages p = some page → db.Wrote page

/-- The database is sound and `P` holds, as long as there is an id without a page. -/
def Ok (db : BTreeDb) (P : Prop) : Prop := db.Full ∨ db.Sound ∧ P

theorem Adds.refl (db : BTreeDb) : db.Adds db := ⟨fun _ h => h, fun _ _ h => .inl h⟩

theorem Adds.trans {db₁ db₂ db₃ : BTreeDb} (h : db₁.Adds db₂) (h' : db₂.Adds db₃) :
    db₁.Adds db₃ := by
  refine ⟨fun p hp => h'.has p (h.has p hp), fun p page hpage => ?_⟩
  rcases h'.sized p page hpage with hold | hlen
  · exact h.sized p page hold
  · exact .inr hlen

theorem Adds.of_pages (h : db'.pages = db.pages) : db.Adds db' := by
  refine ⟨fun p hp => ?_, fun p page hpage => .inl (h ▸ hpage)⟩
  unfold Has
  rw [h]
  exact hp

theorem Adds.target (h : db.Adds db') (hp : db.Target p) : db'.Target p := ⟨hp.1, h.has p hp.2⟩

theorem Adds.full (h : db.Adds db') (hf : db.Full) : db'.Full := fun p => h.has p (hf p)

theorem Adds.wrote {page : Bytes} (h : db.Adds db') (hw : db.Wrote page) : db'.Wrote page := by
  cases hw with
  | blank => exact .blank
  | free hn => exact .free (h.has _ hn)
  | node hv hc hn => exact .node hv (fun q hq => h.target (hc q hq)) hn

theorem Wrote.length {page : Bytes} (h : db.Wrote page) : page.length = 4096 := by
  cases h with
  | blank => exact List.length_replicate
  | free _ => exact freePage_length _
  | node hv hc hpage => exact nodePage_length hpage

theorem adds_writePage (db : BTreeDb) (p : UInt32) {page : Bytes} (hlen : page.length = 4096) :
    db.Adds (db.writePage p page) := by
  refine ⟨fun q hq => ?_, fun q page' hpage => ?_⟩
  · unfold Has at hq ⊢
    rw [writePage_pages]
    by_cases h : q = p
    · rw [h, Function.update_self]
      rfl
    · rwa [Function.update_of_ne h]
  · rw [writePage_pages] at hpage
    by_cases h : q = p
    · rw [h, Function.update_self] at hpage
      exact .inr (Option.some.inj hpage ▸ hlen)
    · rw [Function.update_of_ne h] at hpage
      exact .inl hpage

theorem adds_writeHeader (db : BTreeDb) : db.Adds db.writeHeader :=
  db.adds_writePage 0 (headerPage_length db)

theorem has_writePage (db : BTreeDb) (p : UInt32) (page : Bytes) :
    (db.writePage p page).Has q ↔ q = p ∨ db.Has q := by
  unfold Has
  rw [writePage_pages]
  by_cases h : q = p
  · simp [h]
  · rw [Function.update_of_ne h]
    simp [h]

theorem Ok.map (h : db.Ok P) (hq : P → Q) : db.Ok Q := h.imp_right fun ⟨hs, hp⟩ => ⟨hs, hq hp⟩

/-- A fact that does not depend on the database is kept. -/
theorem Ok.and (h : db.Ok P) (ha : db.Adds db') (h' : db'.Ok Q) : db'.Ok (P ∧ Q) := by
  rcases h with hf | ⟨-, hp⟩
  · exact .inl (ha.full hf)
  · exact h'.map fun hq => ⟨hp, hq⟩

/-- A page is overwritten with one that a function may write. -/
theorem Sound.writePage {page : Bytes} (h : db.Sound) (hp : db.Target p) (hw : db.Wrote page) :
    (db.writePage p page).Sound := by
  have ha := adds_writePage db p hw.length
  refine ⟨?_, ha.target h.root, ha.has _ h.free, h.count, fun q => ?_, fun q page' hq hpage => ?_⟩
  · rw [writePage_pages, Function.update_of_ne hp.1.symm]
    exact h.header
  · rw [has_writePage, writePage_pageCount, ← h.extent q]
    exact ⟨fun hor => hor.elim (fun he => he ▸ hp.2) id, .inr⟩
  · rw [writePage_pages] at hpage
    by_cases hqp : q = p
    · rw [hqp, Function.update_self] at hpage
      cases Option.some.inj hpage
      exact ha.wrote hw
    · rw [Function.update_of_ne hqp] at hpage
      exact ha.wrote (h.wrote q page' hq hpage)

/-- The header is written after its fields have changed. -/
theorem Sound.writeHeader (hroot : db.Target db.rootPage) (hfree : db.Has db.freeHead)
    (hcount : 2 ≤ db.pageCount) (hextent : ∀ p, db.Has p ↔ p < db.pageCount)
    (hwrote : ∀ p page, p ≠ 0 → db.pages p = some page → db.Wrote page) :
    db.writeHeader.Sound := by
  have ha := adds_writePage db 0 (headerPage_length db)
  have h0 : db.Has 0 := (hextent 0).mpr (by
    rw [UInt32.lt_iff_toNat_lt]
    rw [UInt32.le_iff_toNat_le] at hcount
    exact (show (0 : Nat) < 2 by decide).trans_le hcount)
  refine ⟨?_, ha.target hroot, ha.has _ hfree, hcount, fun p => ?_, fun p page hp hpage => ?_⟩
  · show Function.update db.pages 0 (some (headerPage db)) 0 = some (headerPage db)
    rw [Function.update_self]
  · show db.writeHeader.Has p ↔ p < db.pageCount
    rw [← hextent p]
    exact (has_writePage db 0 _).trans ⟨fun hor => hor.elim (fun he => he ▸ h0) id, .inr⟩
  · have hpage : Function.update db.pages 0 (some (headerPage db)) p = some page := hpage
    rw [Function.update_of_ne hp] at hpage
    exact ha.wrote (hwrote p page hp hpage)

end BTreeDb

/-- The function takes no page away, and it ends with `Q` when it is done, in a database that is
sound as long as there is an id without a page. -/
def Io.Ensures {α : Type} (x : Io α) (db : BTreeDb) (Q : α → BTreeDb → Prop) : Prop :=
  match x db with
  | .done a db' => db.Adds db' ∧ db'.Ok (Q a db')
  | .failed db' => db.Adds db' ∧ db'.Ok True
  | .undefined => True

namespace Io.Ensures

variable {α β : Type} {x : Io α} {f : α → Io β} {Q : α → BTreeDb → Prop} {R : β → BTreeDb → Prop}

theorem pure {a : α} (h : db.Ok (Q a db)) : (Pure.pure a : Io α).Ensures db Q :=
  ⟨BTreeDb.Adds.refl db, h⟩

theorem fail (h : db.Ok P) : (Io.fail : Io α).Ensures db Q :=
  ⟨BTreeDb.Adds.refl db, h.map fun _ => trivial⟩

theorem bind (h : x.Ensures db Q)
    (hf : ∀ a db', db.Adds db' → db'.Ok (Q a db') → (f a).Ensures db' R) :
    (x >>= f).Ensures db R := by
  unfold Io.Ensures at h ⊢
  cases hx : x db with
  | done a db' =>
    rw [hx] at h
    have hstep := hf a db' h.1 h.2
    unfold Io.Ensures at hstep
    rw [Io.bind_done hx]
    cases hfa : f a db' with
    | done b db'' =>
      rw [hfa] at hstep
      exact ⟨h.1.trans hstep.1, hstep.2⟩
    | failed db'' =>
      rw [hfa] at hstep
      exact ⟨h.1.trans hstep.1, hstep.2⟩
    | undefined => trivial
  | failed db' =>
    rw [hx] at h
    rw [Io.bind_failed hx]
    exact h
  | undefined =>
    rw [Io.bind_undefined hx]
    trivial

theorem mono {Q' : α → BTreeDb → Prop} (h : x.Ensures db Q) (hq : ∀ a db', Q a db' → Q' a db') :
    x.Ensures db Q' := by
  unfold Io.Ensures at h ⊢
  cases hx : x db with
  | done a db' =>
    rw [hx] at h
    exact ⟨h.1, h.2.map (hq a db')⟩
  | failed db' =>
    rw [hx] at h
    exact h
  | undefined => trivial

theorem attempt (h : x.Ensures db Q) : x.attempt.Ensures db fun _ _ => True := by
  unfold Io.Ensures at h
  unfold Io.Ensures Io.attempt
  cases hx : x db with
  | done a db' =>
    rw [hx] at h
    exact ⟨h.1, h.2.map fun _ => trivial⟩
  | failed db' =>
    rw [hx] at h
    exact h
  | undefined => trivial

/-- The function comes down to another one, in a database with the same pages and more. -/
theorem of_run {y : Io α} (ha : db.Adds db') (hx : x db = y db') (h : y.Ensures db' Q) :
    x.Ensures db Q := by
  unfold Io.Ensures at h ⊢
  rw [hx]
  cases hy : y db' with
  | done a db'' =>
    rw [hy] at h
    exact ⟨ha.trans h.1, h.2⟩
  | failed db'' =>
    rw [hy] at h
    exact ⟨ha.trans h.1, h.2⟩
  | undefined => trivial

theorem of_done {a : α} (hx : x db = .done a db') (ha : db.Adds db') (h : db'.Ok (Q a db')) :
    x.Ensures db Q := by
  unfold Io.Ensures
  rw [hx]
  exact ⟨ha, h⟩

theorem of_failed (hx : x db = .failed db') (ha : db.Adds db') (h : db'.Ok P) :
    x.Ensures db Q := by
  unfold Io.Ensures
  rw [hx]
  exact ⟨ha, h.map fun _ => trivial⟩

/-- The fields of the database are read. -/
theorem getDb {f : BTreeDb → Io β} (h : (f db).Ensures db R) : (Io.getDb >>= f).Ensures db R := h

end Io.Ensures

theorem nodePage_loads {n : NodeData} {page : Bytes} (hv : n.Valid) (h : nodePage n = some page) :
    loadNode page = .ok n := by
  obtain ⟨page', hpage', hload, -⟩ := nodePage_load hv (nodePage_size h)
  cases hpage'.symm.trans h
  exact hload

/-- A page with a node is not taken for a free one. -/
theorem pageGetType_node {n : NodeData} {page : Bytes} (h : loadNode page = .ok n) :
    pageGetType page ≠ pageTypeFree := by
  intro htype
  unfold loadNode at h
  simp only [htype] at h
  cases h

/-- A page that loads is one that a node was written to. -/
theorem BTreeDb.Wrote.load {page : Bytes} {n : NodeData} (h : db.Wrote page)
    (hload : loadNode page = .ok n) :
    n.Valid ∧ (∀ q ∈ n.children, db.Target q) ∧ nodePage n = some page := by
  cases h with
  | blank => exact absurd zeroPage_type (pageGetType_node hload)
  | free _ => exact absurd (freePage_spec _).1 (pageGetType_node hload)
  | node hv hc hpage =>
    cases (nodePage_loads hv hpage).symm.trans hload
    exact ⟨hv, hc, hpage⟩

theorem BTreeDb.Wrote.next {page : Bytes} (h : db.Wrote page)
    (htype : pageGetType page = pageTypeFree) (h0 : db.Has 0) : db.Has (rdU32 (page.drop 8)) := by
  cases h with
  | blank => exact h0
  | free hn =>
    rw [(freePage_spec _).2]
    exact hn
  | node hv hc hpage => exact absurd htype (pageGetType_node (nodePage_loads hv hpage))

theorem BTreeDb.Sound.zero (h : db.Sound) : db.Has 0 := by
  unfold BTreeDb.Has
  rw [h.header]
  rfl

theorem BTreeDb.Sound.page (h : db.Sound) (hp : db.Target p) :
    ∃ page, db.pages p = some page ∧ db.Wrote page := by
  obtain ⟨page, hpage⟩ := Option.isSome_iff_exists.mp hp.2
  exact ⟨page, hpage, h.wrote p page hp.1 hpage⟩

/-- What a node that is read or written says: its atoms are valid, and its children are pages. -/
def NodeData.Good (n : NodeData) (db : BTreeDb) : Prop :=
  n.Valid ∧ ∀ q ∈ n.children, db.Target q

theorem NodeData.Good.adds {n : NodeData} (h : n.Good db) (ha : db.Adds db') : n.Good db' :=
  ⟨h.1, fun q hq => ha.target (h.2 q hq)⟩

theorem dbReadPage_ensures (h : db.Ok (db.Target p)) :
    (dbReadPage p).Ensures db fun page db' => db'.Wrote page := by
  unfold Io.Ensures dbReadPage
  cases hpage : db.pages p with
  | none => exact ⟨.refl db, h.map fun _ => trivial⟩
  | some page =>
    refine ⟨.refl db, ?_⟩
    rcases h with hf | ⟨hs, hp⟩
    · exact .inl hf
    · exact .inr ⟨hs, hs.wrote p page hp.1 hpage⟩

theorem nodeLoad_ensures (h : db.Ok (db.Target p)) :
    (nodeLoad p).Ensures db fun n db' => n.Good db' := by
  refine (dbReadPage_ensures h).bind fun page db' _ h' => ?_
  cases hload : loadNode page with
  | ok n =>
    refine .pure (h'.map fun hw => ?_)
    obtain ⟨hv, hc, -⟩ := hw.load hload
    exact ⟨hv, hc⟩
  | error e =>
    cases e with
    | failed => exact .fail h'
    | outOfBounds => exact trivial

/-- A node is written to a page behind the header. -/
theorem nodeWrite_ensures {n : NodeData} (h : db.Ok (db.Target p ∧ n.Good db)) :
    (nodeWrite p n).Ensures db fun _ _ => True := by
  unfold nodeWrite
  cases hpage : nodePage n with
  | none => exact .fail h
  | some page =>
    have ha := db.adds_writePage p (nodePage_length hpage)
    refine ⟨ha, ?_⟩
    rcases h with hf | ⟨hs, hp, hv, hc⟩
    · exact .inl (ha.full hf)
    · exact .inr ⟨hs.writePage hp (.node hv hc hpage), trivial⟩

/-- The database with a page of zeros behind its last page. -/
def BTreeDb.grown (db : BTreeDb) : BTreeDb :=
  (({ db with pageCount := db.pageCount + 1 } : BTreeDb).writePage db.pageCount
    (List.replicate btreePageSize 0)).writeHeader

theorem zeroPage_length : (List.replicate btreePageSize (0 : UInt8)).length = 4096 :=
  List.length_replicate

theorem BTreeDb.adds_zeros (db : BTreeDb) :
    db.Adds (({ db with pageCount := db.pageCount + 1 } : BTreeDb).writePage db.pageCount
      (List.replicate btreePageSize 0)) := by
  let db₁ : BTreeDb := { db with pageCount := db.pageCount + 1 }
  have ha : db.Adds db₁ := .of_pages rfl
  exact ha.trans (db₁.adds_writePage db.pageCount zeroPage_length)

theorem BTreeDb.adds_grown (db : BTreeDb) : db.Adds db.grown :=
  db.adds_zeros.trans (adds_writeHeader _)

/-- The number of the pages grows by one: the new page has zeros. When the count is over, there is a
page under each id. -/
theorem BTreeDb.Sound.grown (h : db.Sound) : db.grown.Ok (db.grown.Target db.pageCount) := by
  let db₁ : BTreeDb := { db with pageCount := db.pageCount + 1 }
  have ha₁ : db.Adds (db₁.writePage db.pageCount (List.replicate btreePageSize 0)) :=
    db.adds_zeros
  have ha : db.Adds db.grown := db.adds_grown
  have hnew : (db₁.writePage db.pageCount (List.replicate btreePageSize 0)).Has db.pageCount :=
    (has_writePage db₁ _ _).mpr (.inl rfl)
  have hcount : 2 ≤ db.pageCount.toNat := UInt32.le_iff_toNat_le.mp h.count
  have htarget : db.grown.Target db.pageCount := by
    refine ⟨fun h0 => ?_, (adds_writeHeader _).has _ hnew⟩
    rw [h0] at hcount
    exact absurd hcount (by decide)
  have hlt : db.pageCount.toNat < 4294967296 := db.pageCount.toNat_lt
  have hsucc : (db.pageCount + 1).toNat = (db.pageCount.toNat + 1) % 4294967296 := by
    rw [UInt32.toNat_add]
    rfl
  by_cases hover : db.pageCount.toNat + 1 = 4294967296
  · refine .inl fun p => ?_
    by_cases hp : p = db.pageCount
    · rw [hp]
      exact htarget.2
    · refine ha.has p ((h.extent p).mpr (UInt32.lt_iff_toNat_lt.mpr ?_))
      have hne : p.toNat ≠ db.pageCount.toNat := fun he => hp (UInt32.toNat_inj.mp he)
      have hlt' : p.toNat < 4294967296 := p.toNat_lt
      omega
  · refine .inr ⟨.writeHeader (ha₁.target h.root) (ha₁.has _ h.free) ?_ (fun p => ?_)
      fun p page hp hpage => ?_, htarget⟩
    · show 2 ≤ db.pageCount + 1
      rw [UInt32.le_iff_toNat_le, hsucc]
      show 2 ≤ _
      omega
    · show (db₁.writePage db.pageCount _).Has p ↔ p < db.pageCount + 1
      have hold : db₁.Has p ↔ p < db.pageCount := h.extent p
      rw [has_writePage, hold, UInt32.lt_iff_toNat_lt, UInt32.lt_iff_toNat_lt, hsucc,
        ← UInt32.toNat_inj]
      omega
    · have hpage : Function.update db.pages db.pageCount
          (some (List.replicate btreePageSize 0)) p = some page := hpage
      by_cases hpc : p = db.pageCount
      · rw [hpc, Function.update_self] at hpage
        cases Option.some.inj hpage
        exact .blank
      · rw [Function.update_of_ne hpc] at hpage
        exact ha₁.wrote (h.wrote p page hp hpage)

theorem dbAllocPage_cases (db : BTreeDb) :
    dbAllocPage db = .failed db ∨
    (∃ page, db.freeHead ≠ 0 ∧ db.pages db.freeHead = some page ∧
      pageGetType page = pageTypeFree ∧ dbAllocPage db =
        .done db.freeHead ({ db with freeHead := rdU32 (page.drop 8) } : BTreeDb).writeHeader) ∨
    dbAllocPage db = .done db.pageCount db.grown := by
  by_cases hfree : db.freeHead = 0
  · refine .inr (.inr ?_)
    show (if db.freeHead ≠ 0 then _ else _ : Io UInt32) db = _
    rw [if_neg (by simp [hfree])]
    rfl
  · have hrun : dbAllocPage db = (dbReadPage db.freeHead >>= fun page =>
        if pageGetType page ≠ pageTypeFree then Io.fail
        else do
          Io.setDb { db with freeHead := rdU32 (page.drop 8) }
          dbWriteHeader
          return db.freeHead) db := by
      show (if db.freeHead ≠ 0 then _ else _ : Io UInt32) db = _
      rw [if_pos hfree]
    rw [hrun]
    cases hpage : db.pages db.freeHead with
    | none =>
      refine .inl (Io.bind_failed ?_)
      simp only [dbReadPage, hpage]
    | some page =>
      have hread : dbReadPage db.freeHead db = .done page db := by simp only [dbReadPage, hpage]
      rw [Io.bind_done hread]
      by_cases htype : pageGetType page = pageTypeFree
      · refine .inr (.inl ⟨page, hfree, rfl, htype, ?_⟩)
        rw [if_neg (by simp [htype])]
        rfl
      · rw [if_pos htype]
        exact .inl rfl

/-- The free list begins with another page. -/
theorem BTreeDb.Sound.setFree (h : db.Sound) (hp : db.Has p) :
    ({ db with freeHead := p } : BTreeDb).writeHeader.Sound := by
  have ha : db.Adds { db with freeHead := p } := .of_pages rfl
  exact .writeHeader h.root hp h.count h.extent fun q page hq hpage =>
    ha.wrote (h.wrote q page hq hpage)

/-- The tree has another root. -/
theorem BTreeDb.Sound.setRoot (h : db.Sound) (hp : db.Target p) :
    ({ db with rootPage := p } : BTreeDb).writeHeader.Sound := by
  have ha : db.Adds { db with rootPage := p } := .of_pages rfl
  exact .writeHeader hp h.free h.count h.extent fun q page hq hpage =>
    ha.wrote (h.wrote q page hq hpage)

theorem dbAllocPage_ensures (h : db.Ok P) :
    dbAllocPage.Ensures db fun p db' => db'.Target p := by
  rcases dbAllocPage_cases db with hrun | ⟨page, hfree, hpage, htype, hrun⟩ | hrun
  · exact .of_failed hrun (.refl db) h
  · let db₁ : BTreeDb := { db with freeHead := rdU32 (page.drop 8) }
    have ha₁ : db.Adds db₁ := .of_pages rfl
    have ha : db.Adds db₁.writeHeader := ha₁.trans db₁.adds_writeHeader
    refine .of_done hrun ha ?_
    rcases h with hf | ⟨hs, -⟩
    · exact .inl (ha.full hf)
    · have hnext := (hs.wrote _ page hfree hpage).next htype hs.zero
      exact .inr ⟨hs.setFree hnext, hfree, ha.has _ hs.free⟩
  · refine .of_done hrun db.adds_grown ?_
    rcases h with hf | ⟨hs, -⟩
    · exact .inl (db.adds_grown.full hf)
    · exact hs.grown

/-- A page is put on the free list. -/
theorem dbFreePage_ensures (h : db.Ok P) : (dbFreePage p).Ensures db fun _ _ => True := by
  let db₁ := db.writePage p (freePage db.freeHead)
  let db₂ : BTreeDb := { db₁ with freeHead := p }
  have ha₁ : db.Adds db₁ := db.adds_writePage p (freePage_length _)
  have ha₂ : db₁.Adds db₂ := .of_pages rfl
  have ha : db.Adds db₂.writeHeader := (ha₁.trans ha₂).trans db₂.adds_writeHeader
  by_cases hp : p = 0 ∨ db.pageCount ≤ p
  · have hrun : dbFreePage p db = .failed db := by
      show (if p = 0 ∨ db.pageCount ≤ p then _ else _ : Io Unit) db = _
      rw [if_pos hp]
      rfl
    exact .of_failed hrun (.refl db) h
  · by_cases hroot : p = db.rootPage
    · have hrun : dbFreePage p db = .failed db := by
        show (if p = 0 ∨ db.pageCount ≤ p then _ else _ : Io Unit) db = _
        rw [if_neg hp, if_pos hroot]
        rfl
      exact .of_failed hrun (.refl db) h
    · have hrun : dbFreePage p db = .done () db₂.writeHeader := by
        show (if p = 0 ∨ db.pageCount ≤ p then _ else _ : Io Unit) db = _
        rw [if_neg hp, if_neg hroot]
        rfl
      refine .of_done hrun ha ?_
      rcases h with hf | ⟨hs, -⟩
      · exact .inl (ha.full hf)
      · have hhas : db.Has p := (hs.extent p).mpr (UInt32.not_le.mp fun hle => hp (.inr hle))
        have hs₁ := hs.writePage ⟨fun h0 => hp (.inl h0), hhas⟩ (.free hs.free)
        exact .inr ⟨hs₁.setFree (ha₁.has p hhas), trivial⟩

def Promote.Good (pr : Promote) (db : BTreeDb) : Prop := pr.key.Valid ∧ db.Target pr.rightPage

/-- A page is cut: its left half stays, and the right one is written to a new page. -/
theorem cut_ensures {left right : NodeData} {k : BTreeAtom}
    (h : db.Ok (db.Target p ∧ left.Good db ∧ right.Good db ∧ k.Valid)) :
    (do
      let rightPage ← dbAllocPage
      let okLeft ← (nodeWrite p left).attempt
      let okRight ← (nodeWrite rightPage right).attempt
      if okLeft ∧ okRight then return some (⟨k, rightPage⟩ : Promote) else Io.fail).Ensures db
        fun r db' => ∀ pr ∈ r, pr.Good db' := by
  refine (dbAllocPage_ensures h).bind fun rightPage db₁ ha₁ h₁ => ?_
  have hall₁ := h.and ha₁ h₁
  have hleft := nodeWrite_ensures (p := p) (n := left) (hall₁.map fun ⟨⟨hp, hl, _⟩, _⟩ =>
    ⟨ha₁.target hp, hl.adds ha₁⟩)
  refine hleft.attempt.bind fun okLeft db₂ ha₂ h₂ => ?_
  have hall₂ := hall₁.and ha₂ h₂
  have hright := nodeWrite_ensures (p := rightPage) (n := right)
    (hall₂.map fun ⟨⟨⟨_, _, hr, _⟩, ht⟩, _⟩ => ⟨ha₂.target ht, (hr.adds ha₁).adds ha₂⟩)
  refine hright.attempt.bind fun okRight db₃ ha₃ h₃ => ?_
  have hall₃ := hall₂.and ha₃ h₃
  by_cases hok : okLeft = true ∧ okRight = true
  · rw [if_pos hok]
    refine .pure (hall₃.map fun ⟨⟨⟨⟨_, _, _, hk⟩, ht⟩, _⟩, _⟩ pr hpr => ?_)
    cases Option.some.inj hpr
    exact ⟨hk, ha₃.target (ha₂.target ht)⟩
  · rw [if_neg hok]
    exact .fail h₃

theorem write_ensures {n : NodeData} {α : Type} {r : Option α} (hr : r = none)
    {G : α → BTreeDb → Prop} (h : db.Ok (db.Target p ∧ n.Good db)) :
    (do
      nodeWrite p n
      return r).Ensures db fun r db' => ∀ a ∈ r, G a db' := by
  refine (nodeWrite_ensures h).bind fun _ db₁ _ h₁ => .pure (h₁.map fun _ a ha => ?_)
  rw [hr] at ha
  cases ha

theorem leafGood {entries : List LeafEntry} (h : ∀ e ∈ entries, e.Valid) (db : BTreeDb) :
    (NodeData.leaf 0 entries).Good db := ⟨h, fun _ hq => nomatch hq⟩

theorem leafInsert_ensures {entries : List LeafEntry}
    (h : db.Ok (db.Target p ∧ ∀ e ∈ entries, e.Valid)) (hk : key.Valid) (hv : value.Valid) :
    (leafInsert p entries key value).Ensures db fun r db' => ∀ pr ∈ r, pr.Good db' := by
  unfold leafInsert
  cases hslot : leafFindSlot entries key with
  | mk pos found =>
    cases found with
    | true =>
      exact write_ensures rfl (h.map fun ⟨hp, he⟩ => ⟨hp, leafGood (setValueAt_valid he hv pos) db⟩)
    | false =>
      have hall : db.Ok (db.Target p ∧
          ∀ e ∈ buildWithInsert entries pos ⟨key, value⟩, e.Valid) :=
        h.map fun ⟨hp, he⟩ => ⟨hp, buildWithInsert_forall he ⟨hk, hv⟩ pos⟩
      simp only [Bool.false_eq_true, ↓reduceIte]
      generalize buildWithInsert entries pos ⟨key, value⟩ = all at hall ⊢
      by_cases hfits : nodeFitsLeaf all = true
      · rw [if_pos hfits]
        exact write_ensures rfl (hall.map fun ⟨hp, he⟩ => ⟨hp, leafGood he db⟩)
      · rw [if_neg hfits]
        cases hm : all[all.length / 2]? with
        | none => exact .fail h
        | some e =>
          by_cases hmid : all.length / 2 = 0
          · dsimp only
            rw [if_pos hmid]
            exact .fail h
          · dsimp only
            rw [if_neg hmid]
            exact cut_ensures (hall.map fun ⟨hp, he⟩ =>
              ⟨hp, leafGood (fun a ha => he a (List.mem_of_mem_take ha)) db,
                leafGood (fun a ha => he a (List.mem_of_mem_drop ha)) db,
                (he e (List.mem_of_getElem? hm)).1⟩)

theorem internalGood_iff {leftChild : UInt32} {entries : List InternalEntry} :
    (NodeData.internal leftChild entries).Good db ↔
      db.Target leftChild ∧ ∀ e ∈ entries, e.key.Valid ∧ db.Target e.child := by
  constructor
  · rintro ⟨hv, hc⟩
    exact ⟨hc _ List.mem_cons_self, fun e he =>
      ⟨hv e he, hc _ (List.mem_cons_of_mem _ (List.mem_map_of_mem he))⟩⟩
  · rintro ⟨hl, he⟩
    refine ⟨fun e hm => (he e hm).1, fun q hq => ?_⟩
    rcases List.mem_cons.mp hq with rfl | hq
    · exact hl
    · obtain ⟨e, hm, rfl⟩ := List.mem_map.mp hq
      exact (he e hm).2

theorem internalAdd_ensures {leftChild : UInt32} {entries : List InternalEntry} {slot : Nat}
    {pr : Promote}
    (h : db.Ok (db.Target p ∧ (NodeData.internal leftChild entries).Good db ∧ pr.Good db)) :
    (internalAdd p leftChild entries slot pr).Ensures db fun r db' => ∀ pr ∈ r, pr.Good db' := by
  have hall : db.Ok (db.Target p ∧ db.Target leftChild ∧
      ∀ e ∈ buildWithInsert entries slot ⟨pr.key, pr.rightPage⟩, e.key.Valid ∧ db.Target e.child) :=
    h.map fun ⟨hp, hn, hpr⟩ => by
      obtain ⟨hl, he⟩ := internalGood_iff.mp hn
      let e : InternalEntry := ⟨pr.key, pr.rightPage⟩
      have hnew : e.key.Valid ∧ db.Target e.child := hpr
      exact ⟨hp, hl, buildWithInsert_forall he hnew slot⟩
  unfold internalAdd
  dsimp only
  generalize buildWithInsert entries slot ⟨pr.key, pr.rightPage⟩ = all at hall ⊢
  by_cases hfits : nodeFitsInternal all = true
  · rw [if_pos hfits]
    exact write_ensures rfl (hall.map fun ⟨hp, hn⟩ => ⟨hp, internalGood_iff.mpr hn⟩)
  · rw [if_neg hfits]
    cases hm : all[all.length / 2]? with
    | none => exact .fail h
    | some e =>
      by_cases hmid : all.length / 2 = 0
      · dsimp only
        rw [if_pos hmid]
        exact .fail h
      · dsimp only
        rw [if_neg hmid]
        refine cut_ensures (hall.map fun ⟨hp, hl, he⟩ => ?_)
        have hmem := he e (List.mem_of_getElem? hm)
        exact ⟨hp, internalGood_iff.mpr ⟨hl, fun a ha => he a (List.mem_of_mem_take ha)⟩,
          internalGood_iff.mpr ⟨hmem.2, fun a ha => he a (List.mem_of_mem_drop ha)⟩, hmem.1⟩

/-- The child of a page that a key is routed to. -/
theorem findRoute_mem (key : BTreeAtom) (slot : Nat) (child : UInt32)
    (entries : List InternalEntry) :
    (findRoute key slot child entries).2 ∈ child :: entries.map InternalEntry.child := by
  induction entries generalizing slot child with
  | nil => exact List.mem_singleton_self _
  | cons e entries ih =>
    unfold findRoute
    split
    · exact List.mem_cons_self
    · exact List.mem_cons_of_mem _ (ih (slot + 1) e.child)

theorem insertRecursive_ensures {fuel : Nat} (h : db.Ok (db.Target p)) (hk : key.Valid)
    (hv : value.Valid) :
    (insertRecursive key value fuel p).Ensures db fun r db' => ∀ pr ∈ r, pr.Good db' := by
  induction fuel generalizing p db with
  | zero => exact trivial
  | succ fuel ih =>
    refine (nodeLoad_ensures h).bind fun n db₁ ha₁ h₁ => ?_
    have hall := h.and ha₁ h₁
    cases n with
    | leaf leftChild entries =>
      exact leafInsert_ensures (hall.map fun ⟨hp, hn⟩ => ⟨ha₁.target hp, hn.1⟩) hk hv
    | internal leftChild entries =>
      have hchild := hall.map fun ⟨_, hn⟩ => hn.2 _ (findRoute_mem key 0 leftChild entries)
      refine (ih hchild).bind fun r db₂ ha₂ h₂ => ?_
      have hall₂ := hall.and ha₂ h₂
      cases r with
      | none => exact .pure (h₂.map fun _ pr hpr => nomatch hpr)
      | some pr =>
        exact internalAdd_ensures (hall₂.map fun ⟨⟨hp, hn⟩, hpr⟩ =>
          ⟨ha₂.target (ha₁.target hp), hn.adds ha₂, hpr pr rfl⟩)

theorem BTreeDb.adds_setRoot (db : BTreeDb) (p : UInt32) :
    db.Adds ({ db with rootPage := p } : BTreeDb).writeHeader := by
  let db₁ : BTreeDb := { db with rootPage := p }
  have ha : db.Adds db₁ := .of_pages rfl
  exact ha.trans db₁.adds_writeHeader

theorem BTreeDb.Ok.setRoot (h : db.Ok (db.Target p)) :
    ({ db with rootPage := p } : BTreeDb).writeHeader.Ok True := by
  rcases h with hf | ⟨hs, hp⟩
  · exact .inl ((db.adds_setRoot p).full hf)
  · exact .inr ⟨hs.setRoot hp, trivial⟩

theorem btreePut_ensures (h : db.Ok P) (hk : key.Valid) (hv : value.Valid) :
    (btreePut key value).Ensures db fun _ _ => True := by
  have hroot : db.Ok (db.Target db.rootPage) := h.imp_right fun ⟨hs, _⟩ => ⟨hs, hs.root⟩
  refine .getDb ((insertRecursive_ensures hroot hk hv).bind fun r db₁ ha₁ h₁ => ?_)
  have hall₁ := hroot.and ha₁ h₁
  cases r with
  | none => exact .pure (h₁.map fun _ => trivial)
  | some pr =>
    refine (dbAllocPage_ensures h₁).bind fun newRootPage db₂ ha₂ h₂ => ?_
    have hall₂ := hall₁.and ha₂ h₂
    have hwrite := nodeWrite_ensures (p := newRootPage)
      (n := .internal db.rootPage [⟨pr.key, pr.rightPage⟩]) (hall₂.map fun ⟨⟨hr, hpr⟩, hnew⟩ => by
        refine ⟨hnew, internalGood_iff.mpr ⟨ha₂.target (ha₁.target hr), fun e he => ?_⟩⟩
        rw [List.mem_singleton.mp he]
        exact ⟨(hpr pr rfl).1, ha₂.target (hpr pr rfl).2⟩)
    refine hwrite.bind fun _ db₃ ha₃ h₃ => ?_
    have hnew := (h₂.and ha₃ h₃).map fun ⟨hnew, _⟩ => ha₃.target hnew
    exact .of_done (a := ()) rfl (db₃.adds_setRoot newRootPage) hnew.setRoot

def DeleteResult.Good (r : DeleteResult) (db : BTreeDb) : Prop :=
  (r.replacementChild ≠ 0 → db.Target r.replacementChild) ∧ ∀ k ∈ r.newMin, k.Valid

theorem DeleteResult.init_good (db : BTreeDb) : DeleteResult.init.Good db :=
  ⟨fun h => absurd rfl h, fun _ hk => nomatch hk⟩

theorem DeleteResult.Good.adds {r : DeleteResult} (h : r.Good db) (ha : db.Adds db') : r.Good db' :=
  ⟨fun hne => ha.target (h.1 hne), h.2⟩

theorem subtreeMinKey_ensures {fuel : Nat} (h : db.Ok (db.Target p)) :
    (subtreeMinKey fuel p).Ensures db fun k _ => k.Valid := by
  induction fuel generalizing p db with
  | zero => exact trivial
  | succ fuel ih =>
    refine (nodeLoad_ensures h).bind fun n db₁ _ h₁ => ?_
    cases n with
    | leaf leftChild entries =>
      cases entries with
      | nil => exact .fail h₁
      | cons e entries => exact .pure (h₁.map fun hn => (hn.1 e List.mem_cons_self).1)
    | internal leftChild entries => exact ih (h₁.map fun hn => hn.2 _ List.mem_cons_self)

theorem internalRemoveSlot_ensures {leftChild : UInt32} {entries : List InternalEntry} {slot : Nat}
    (h : db.Ok ((NodeData.internal leftChild entries).Good db)) :
    (internalRemoveSlot leftChild entries slot).Ensures db fun r db' =>
      (NodeData.internal r.1 r.2).Good db' := by
  unfold internalRemoveSlot
  cases entries with
  | nil => exact trivial
  | cons e rest =>
    have hall := h.map fun hn => internalGood_iff.mp hn
    by_cases hslot : slot = 0
    · dsimp only
      rw [if_pos hslot]
      exact .pure (hall.map fun ⟨_, he⟩ => internalGood_iff.mpr
        ⟨(he e List.mem_cons_self).2, fun a ha => he a (List.mem_cons_of_mem _ ha)⟩)
    · dsimp only
      rw [if_neg hslot]
      exact .pure (hall.map fun ⟨hl, he⟩ => internalGood_iff.mpr
        ⟨hl, fun a ha => he a (List.mem_of_mem_eraseIdx ha)⟩)

/-- One entry is replaced. -/
theorem modify_good {leftChild : UInt32} {entries : List InternalEntry}
    {f : InternalEntry → InternalEntry} (h : (NodeData.internal leftChild entries).Good db)
    (hf : ∀ e, e.key.Valid ∧ db.Target e.child → (f e).key.Valid ∧ db.Target (f e).child) (i : Nat) :
    (NodeData.internal leftChild (entries.modify i f)).Good db := by
  obtain ⟨hl, he⟩ := internalGood_iff.mp h
  refine internalGood_iff.mpr ⟨hl, ?_⟩
  intro a ha
  obtain ⟨j, hj⟩ := List.mem_iff_getElem?.mp ha
  rw [List.getElem?_modify] at hj
  obtain ⟨b, hb, heq⟩ := Option.map_eq_some_iff.mp hj
  have hgood := he b (List.mem_of_getElem? hb)
  split at heq
  · rw [← heq]
    exact hf b hgood
  · rw [← heq]
    exact hgood

theorem updateRoute_ensures {leftChild : UInt32} {entries : List InternalEntry} {slot : Nat}
    {child : DeleteResult}
    (h : db.Ok ((NodeData.internal leftChild entries).Good db ∧ child.Good db)) :
    (updateRoute leftChild entries slot child).Ensures db fun r db' =>
      (NodeData.internal r.1 r.2).Good db' := by
  unfold updateRoute
  by_cases hremove : child.removeChild = true
  · rw [if_pos hremove]
    by_cases hrep : child.replacementChild ≠ 0
    · rw [if_pos hrep]
      have htarget := h.map fun ⟨hn, hc⟩ => And.intro hn (hc.1 hrep)
      by_cases hslot : slot = 0
      · rw [if_pos hslot]
        exact .pure (htarget.map fun ⟨hn, ht⟩ =>
          internalGood_iff.mpr ⟨ht, (internalGood_iff.mp hn).2⟩)
      · rw [if_neg hslot]
        refine (subtreeMinKey_ensures (htarget.map And.right)).bind fun k db₁ ha₁ h₁ => ?_
        refine .pure ((htarget.and ha₁ h₁).map fun ⟨⟨hn, ht⟩, hk⟩ => ?_)
        exact modify_good (hn.adds ha₁) (fun _ _ => ⟨hk, ha₁.target ht⟩) _
    · rw [if_neg hrep]
      exact internalRemoveSlot_ensures (h.map And.left)
  · rw [if_neg hremove]
    cases hmin : child.newMin with
    | none => exact .pure (h.map And.left)
    | some k =>
      by_cases hslot : 0 < slot
      · dsimp only
        rw [if_pos hslot]
        refine .pure (h.map fun ⟨hn, hc⟩ => ?_)
        show (NodeData.internal leftChild
          (entries.modify (slot - 1) fun e => { e with key := k })).Good db
        exact modify_good (f := fun e => { e with key := k }) hn (fun e he => ⟨hc.2 k hmin, he.2⟩) _
      · dsimp only
        rw [if_neg hslot]
        exact .pure (h.map And.left)

theorem deleteLeaf_ensures {entries : List LeafEntry} {isRoot : Bool}
    (h : db.Ok (db.Target p ∧ ∀ e ∈ entries, e.Valid)) :
    (deleteLeaf p entries key isRoot).Ensures db fun r db' => r.Good db' := by
  unfold deleteLeaf
  cases hslot : leafFindSlot entries key with
  | mk pos found =>
    cases found with
    | false => exact .pure (h.map fun _ => DeleteResult.init_good db)
    | true =>
      have hrest : db.Ok (db.Target p ∧ ∀ e ∈ entries.eraseIdx pos, e.Valid) :=
        h.map fun ⟨hp, he⟩ => ⟨hp, fun e hm => he e (List.mem_of_mem_eraseIdx hm)⟩
      have hmin : (∀ e ∈ entries.eraseIdx pos, e.Valid) → ∀ k ∈ (if decide (pos = 0) = true then
          ((entries.eraseIdx pos).head?).map LeafEntry.key else none), k.Valid := by
        intro he k hk
        split at hk
        · obtain ⟨e, hm, rfl⟩ := Option.map_eq_some_iff.mp hk
          exact (he e (List.mem_of_head? hm)).1
        · cases hk
      have hwrite := nodeWrite_ensures (p := p) (n := .leaf 0 (entries.eraseIdx pos))
        (hrest.map fun ⟨hp, he⟩ => ⟨hp, leafGood he db⟩)
      simp only [Bool.not_true, Bool.false_eq_true, ↓reduceIte]
      by_cases hroot : isRoot = true
      · rw [if_pos hroot]
        refine hwrite.bind fun _ db₁ ha₁ h₁ => .pure ((hrest.and ha₁ h₁).map fun ⟨⟨_, he⟩, _⟩ => ?_)
        exact ⟨fun hne => absurd rfl hne, hmin he⟩
      · rw [if_neg hroot]
        by_cases hnil : entries.eraseIdx pos = []
        · rw [if_pos hnil]
          refine (dbFreePage_ensures h).bind fun _ db₁ _ h₁ => .pure (h₁.map fun _ => ?_)
          exact ⟨fun hne => absurd rfl hne, fun _ hk => nomatch hk⟩
        · rw [if_neg hnil]
          refine hwrite.bind fun _ db₁ ha₁ h₁ =>
            .pure ((hrest.and ha₁ h₁).map fun ⟨⟨_, he⟩, _⟩ => ?_)
          exact ⟨fun hne => absurd rfl hne, hmin he⟩

/-- The result of a page that was written, or given up for its only child. -/
theorem DeleteResult.good_of_eq {r : DeleteResult} (hrep : r.replacementChild = 0)
    (hmin : r.newMin = none) (db : BTreeDb) : r.Good db :=
  ⟨fun hne => absurd hrep hne, fun k hk => by rw [hmin] at hk; cases hk⟩

theorem finishInternal_ensures {leftChild : UInt32} {entries : List InternalEntry} {slot : Nat}
    {isRoot : Bool} (h : db.Ok (db.Target p ∧ (NodeData.internal leftChild entries).Good db)) :
    (finishInternal p leftChild entries slot isRoot).Ensures db fun r db' => r.Good db' := by
  have hleft := h.map fun ⟨_, hn⟩ => (internalGood_iff.mp hn).1
  have hwrite := nodeWrite_ensures (p := p) (n := .internal leftChild entries) h
  unfold finishInternal
  by_cases hroot : isRoot = true
  · rw [if_pos hroot]
    by_cases hnil : entries = [] ∧ leftChild ≠ 0
    · rw [if_pos hnil]
      let db₁ : BTreeDb := { db with rootPage := leftChild }
      refine .of_run (db.adds_setRoot leftChild) rfl ?_
      have h₁ : db₁.writeHeader.Ok True := hleft.setRoot
      show (if p ≠ leftChild then _ else _ : Io DeleteResult).Ensures db₁.writeHeader _
      by_cases hpage : p ≠ leftChild
      · rw [if_pos hpage]
        exact (dbFreePage_ensures h₁).bind fun _ db₂ _ h₂ =>
          .pure (h₂.map fun _ => DeleteResult.good_of_eq rfl rfl db₂)
      · rw [if_neg hpage]
        exact .pure (h₁.map fun _ => DeleteResult.good_of_eq rfl rfl _)
    · rw [if_neg hnil]
      exact hwrite.bind fun _ db₁ _ h₁ =>
        .pure (h₁.map fun _ => DeleteResult.good_of_eq rfl rfl db₁)
  · rw [if_neg hroot]
    by_cases hnil : entries = []
    · rw [if_pos hnil]
      refine (dbFreePage_ensures h).bind fun _ db₁ ha₁ h₁ => .pure ?_
      exact (hleft.and ha₁ h₁).map fun ⟨hl, _⟩ => ⟨fun _ => ha₁.target hl, fun _ hk => nomatch hk⟩
    · rw [if_neg hnil]
      refine hwrite.bind fun _ db₁ ha₁ h₁ => ?_
      by_cases hslot : slot = 0
      · rw [if_pos hslot]
        have hp := (h.and ha₁ h₁).map fun ⟨⟨hp, _⟩, _⟩ => ha₁.target hp
        refine (subtreeMinKey_ensures hp).bind fun k db₂ _ h₂ => .pure (h₂.map fun hk => ?_)
        refine ⟨fun hne => absurd rfl hne, fun k' hk' => ?_⟩
        cases Option.some.inj hk'
        exact hk
      · rw [if_neg hslot]
        exact .pure (h₁.map fun _ => DeleteResult.good_of_eq rfl rfl db₁)

theorem deleteRecursive_ensures {fuel : Nat} {isRoot : Bool} (h : db.Ok (db.Target p)) :
    (deleteRecursive key fuel p isRoot).Ensures db fun r db' => r.Good db' := by
  induction fuel generalizing p db isRoot with
  | zero => exact trivial
  | succ fuel ih =>
    refine (nodeLoad_ensures h).bind fun n db₁ ha₁ h₁ => ?_
    have hall := h.and ha₁ h₁
    cases n with
    | leaf leftChild entries =>
      exact deleteLeaf_ensures (hall.map fun ⟨hp, hn⟩ => ⟨ha₁.target hp, hn.1⟩)
    | internal leftChild entries =>
      have hchild := hall.map fun ⟨_, hn⟩ => hn.2 _ (findRoute_mem key 0 leftChild entries)
      refine (ih hchild).bind fun r db₂ ha₂ h₂ => ?_
      have hall₂ := hall.and ha₂ h₂
      by_cases hdel : (!r.deleted) = true
      · rw [if_pos hdel]
        exact .pure (h₂.map fun _ => DeleteResult.init_good db₂)
      · rw [if_neg hdel]
        refine (updateRoute_ensures (hall₂.map fun ⟨⟨_, hn⟩, hr⟩ => ⟨hn.adds ha₂, hr⟩)).bind
          fun u db₃ ha₃ h₃ => ?_
        exact finishInternal_ensures ((hall₂.and ha₃ h₃).map fun ⟨⟨⟨hp, _⟩, _⟩, hu⟩ =>
          ⟨ha₃.target (ha₂.target (ha₁.target hp)), hu⟩)

theorem btreeDelete_ensures (h : db.Ok P) : (btreeDelete key).Ensures db fun _ _ => True := by
  have hroot : db.Ok (db.Target db.rootPage) := h.imp_right fun ⟨hs, _⟩ => ⟨hs, hs.root⟩
  exact .getDb ((deleteRecursive_ensures hroot).bind fun r db₁ _ h₁ =>
    .pure (h₁.map fun _ => trivial))

theorem BTreeCall.run_ensures {call : BTreeCall} (h : db.Ok P) (hv : call.Valid) :
    call.run.Ensures db fun _ _ => True := by
  cases call with
  | put key value =>
    exact (btreePut_ensures h hv.1 hv.2).bind fun _ _ _ h₁ => .pure (h₁.map fun _ => trivial)
  | delete key => exact btreeDelete_ensures h

theorem emptyDb_sound : emptyDb.Sound := by
  have hroot : emptyDb.pages 1 = some (pageInit pageTypeLeaf 0) := rfl
  have hextent (p : UInt32) : emptyDb.Has p ↔ p < 2 := by
    have h0 : p = 0 ↔ p.toNat = 0 := UInt32.toNat_inj.symm
    have h1 : p = 1 ↔ p.toNat = 1 := UInt32.toNat_inj.symm
    have hnone : ¬ (⟨fun _ => none, 1, 2, 0⟩ : BTreeDb).Has p := fun h => nomatch h
    unfold emptyDb BTreeDb.writeHeader
    rw [BTreeDb.has_writePage, BTreeDb.has_writePage, h0, h1, UInt32.lt_iff_toNat_lt]
    show _ ↔ p.toNat < 2
    constructor
    · rintro (h | h | h)
      · omega
      · omega
      · exact absurd h hnone
    · omega
  refine ⟨rfl, ⟨by decide, (hextent 1).mpr (by decide)⟩, (hextent 0).mpr (by decide), UInt32.le_refl 2,
    hextent, fun p page hp hpage => ?_⟩
  have hlt : p < 2 := (hextent p).mp (Option.isSome_iff_exists.mpr ⟨page, hpage⟩)
  have hp1 : p = 1 := by
    rw [UInt32.lt_iff_toNat_lt] at hlt
    have h0 : p.toNat ≠ 0 := fun h => hp (UInt32.toNat_inj.mp h)
    have h2 : (2 : UInt32).toNat = 2 := rfl
    refine UInt32.toNat_inj.mp ?_
    show p.toNat = 1
    omega
  rw [hp1, hroot] at hpage
  exact .node (n := .leaf 0 []) (fun e he => nomatch he) (fun q hq => nomatch hq) hpage

/-- A call in a run, when it is done and when it fails. -/
theorem BTreeCall.run_keeps {call : BTreeCall} {b : Bool} (h : db.Ok True) (hv : call.Valid)
    (hr : call.run db = .done b db' ∨ call.run db = .failed db') : db.Adds db' ∧ db'.Ok True := by
  have hrun := BTreeCall.run_ensures h hv
  unfold Io.Ensures at hrun
  rcases hr with hr | hr
  · rw [hr] at hrun
    exact hrun
  · rw [hr] at hrun
    exact hrun

theorem emptyDb_sized {page : Bytes} (hpage : emptyDb.pages p = some page) : page.length = 4096 := by
  by_cases h0 : p = 0
  · rw [h0, emptyDb_sound.header] at hpage
    rw [← Option.some.inj hpage]
    exact headerPage_length _
  · exact (emptyDb_sound.wrote p page h0 hpage).length

/-- Each run leaves the database sound, as long as there is an id without a page, and pages that have
their full size. -/
theorem BTreeRun.sound {ok : BTreeCall → BTreeDb → Prop} {m : List LeafEntry}
    (h : BTreeRun ok db m) :
    db.Ok True ∧ ∀ p page, db.pages p = some page → page.length = 4096 := by
  induction h with
  | opened => exact ⟨.inr ⟨emptyDb_sound, trivial⟩, fun p page hpage => emptyDb_sized hpage⟩
  | done _ hv _ hr ih =>
    obtain ⟨hok, hsized⟩ := ih
    obtain ⟨ha, hok'⟩ := BTreeCall.run_keeps hok hv (.inl hr)
    exact ⟨hok', fun p page hpage => (ha.sized p page hpage).elim (hsized p page) id⟩
  | failed _ hv _ hr ih =>
    obtain ⟨hok, hsized⟩ := ih
    obtain ⟨ha, hok'⟩ := BTreeCall.run_keeps (b := true) hok hv (.inr hr)
    exact ⟨hok', fun p page hpage => (ha.sized p page hpage).elim (hsized p page) id⟩

end ToiLang
