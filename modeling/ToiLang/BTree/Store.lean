import Mathlib.Data.List.Nodup
import ToiLang.BTree.Layout
import ToiLang.BTree.Tree

namespace ToiLang

variable {db db' : BTreeDb} {p q : UInt32} {ids ids' : List UInt32} {pool pool' : Pool}

/-- A page has a node on it. -/
def BTreeDb.Holds (db : BTreeDb) (p : UInt32) (n : NodeData) : Prop :=
  n.Valid ∧ ∃ page, db.pages p = some page ∧ loadNode page = .ok n

mutual

/-- The pages of a tree have its nodes on them. -/
def BTree.Stored (db : BTreeDb) : BTree → Prop
  | .leaf id entries => db.Holds id (.leaf 0 entries)
  | .node id c => db.Holds id (.internal c.first.id c.entries) ∧ c.Stored db

def Chain.Stored (db : BTreeDb) : Chain → Prop
  | .one t => t.Stored db
  | .cons t _ rest => t.Stored db ∧ rest.Stored db

end

theorem BTree.id_mem (t : BTree) : t.id ∈ t.ids := by
  cases t with
  | leaf id entries => exact List.mem_singleton_self id
  | node id c => exact List.mem_cons_self

theorem BTreeDb.Holds.frame {n : NodeData} (h : db.Holds p n) (hp : db'.pages p = db.pages p) :
    db'.Holds p n := by
  obtain ⟨hv, page, hpage, hload⟩ := h
  exact ⟨hv, page, hp ▸ hpage, hload⟩

mutual

/-- A tree is stored as long as its own pages stay. -/
theorem BTree.Stored.frame {db db' : BTreeDb} {t : BTree} (h : t.Stored db)
    (hp : ∀ q ∈ t.ids, db'.pages q = db.pages q) : t.Stored db' := by
  cases t with
  | leaf id entries => exact BTreeDb.Holds.frame h (hp id (BTree.id_mem _))
  | node id c =>
    exact ⟨h.1.frame (hp id (BTree.id_mem _)),
      Chain.Stored.frame h.2 fun q hq => hp q (List.mem_cons_of_mem _ hq)⟩

theorem Chain.Stored.frame {db db' : BTreeDb} {c : Chain} (h : c.Stored db)
    (hp : ∀ q ∈ c.ids, db'.pages q = db.pages q) : c.Stored db' := by
  cases c with
  | one t => exact BTree.Stored.frame (t := t) h hp
  | cons t k rest =>
    exact ⟨BTree.Stored.frame h.1 fun q hq => hp q (List.mem_append_left _ hq),
      Chain.Stored.frame h.2 fun q hq => hp q (List.mem_append_right _ hq)⟩

end

/-- The free pages from a head on, each with the next one in its header. -/
def BTreeDb.FreeChain (db : BTreeDb) : UInt32 → List UInt32 → Prop
  | head, [] => head = 0
  | head, p :: free => head = p ∧ p ≠ 0 ∧ ∃ page, db.pages p = some page ∧
      pageGetType page = pageTypeFree ∧ db.FreeChain (rdU32 (page.drop 8)) free

theorem BTreeDb.FreeChain.frame {head : UInt32} {free : List UInt32} (h : db.FreeChain head free)
    (hp : ∀ q ∈ free, db'.pages q = db.pages q) : db'.FreeChain head free := by
  induction free generalizing head with
  | nil => exact h
  | cons p free ih =>
    obtain ⟨hhead, hne, page, hpage, htype, hnext⟩ := h
    refine ⟨hhead, hne, page, ?_, htype, ih hnext fun q hq => hp q (List.mem_cons_of_mem _ hq)⟩
    rw [hp p List.mem_cons_self, hpage]

/-- The place that a page has among the pages of the database: page 0 is the header. -/
def Pool.room (pool : Pool) (p : UInt32) : Nat := if p ≠ 0 ∧ p < pool.count then 1 else 0

/-- Each page behind the header is one of the given pages, free, or lost, and only one of them. -/
def Pool.Accounts (pool : Pool) (ids : List UInt32) : Prop :=
  ∀ p, ids.count p + pool.free.count p + pool.leaked.count p = pool.room p

/-- There are `n` more page ids. -/
def Pool.HasRoom (pool : Pool) (n : Nat) : Prop := pool.count.toNat + n < UInt32.size

instance (pool : Pool) (n : Nat) : Decidable (pool.HasRoom n) :=
  inferInstanceAs (Decidable (pool.count.toNat + n < UInt32.size))

/-- The database with these pages in use. -/
structure BTreeDb.Keeps (db : BTreeDb) (ids : List UInt32) (pool : Pool) : Prop where
  count : db.pageCount = pool.count
  free : db.FreeChain db.freeHead pool.free
  accounts : pool.Accounts ids

theorem Pool.room_le (pool : Pool) (p : UInt32) : pool.room p ≤ 1 := by
  unfold Pool.room
  split <;> omega

theorem Pool.Accounts.perm (h : pool.Accounts ids) (hp : ids.Perm ids') : pool.Accounts ids' := by
  intro p
  rw [← hp.count_eq p]
  exact h p

theorem Pool.Accounts.bounds (h : pool.Accounts ids) (hp : p ∈ ids) : p ≠ 0 ∧ p < pool.count := by
  have hpos : 0 < ids.count p := List.count_pos_iff.mpr hp
  have hsum := h p
  by_contra hn
  rw [Pool.room, if_neg hn] at hsum
  omega

theorem Pool.Accounts.count_ne_zero (h : pool.Accounts ids) (hp : p ∈ ids) : pool.count ≠ 0 := by
  intro h0
  have hlt := (h.bounds hp).2
  rw [h0] at hlt
  exact absurd hlt UInt32.not_lt_zero

theorem Pool.Accounts.not_free (h : pool.Accounts ids) (hp : p ∈ ids) : p ∉ pool.free := by
  intro hf
  have hpos : 0 < ids.count p := List.count_pos_iff.mpr hp
  have hpos' : 0 < pool.free.count p := List.count_pos_iff.mpr hf
  have hsum := h p
  have hle := pool.room_le p
  omega

theorem Pool.Accounts.nodup (h : pool.Accounts ids) : ids.Nodup := by
  refine List.nodup_iff_count_le_one.mpr fun p => ?_
  have hsum := h p
  have hle := pool.room_le p
  omega

theorem Pool.Accounts.free_bounds (h : pool.Accounts ids) (hp : p ∈ pool.free) :
    p ≠ 0 ∧ p < pool.count := by
  have hpos : 0 < pool.free.count p := List.count_pos_iff.mpr hp
  have hsum := h p
  by_contra hn
  rw [Pool.room, if_neg hn] at hsum
  omega

theorem BTreeDb.Keeps.perm (h : db.Keeps ids pool) (hp : ids.Perm ids') : db.Keeps ids' pool :=
  ⟨h.count, h.free, h.accounts.perm hp⟩

/-- The pages of `ids` and the root are as they were. -/
structure BTreeDb.Same (ids : List UInt32) (db db' : BTreeDb) : Prop where
  pages : ∀ q ∈ ids, db'.pages q = db.pages q
  root : db'.rootPage = db.rootPage

theorem BTreeDb.Same.refl (ids : List UInt32) (db : BTreeDb) : db.Same ids db :=
  ⟨fun _ _ => rfl, rfl⟩

theorem BTreeDb.Same.trans {db₁ db₂ db₃ : BTreeDb} (h : BTreeDb.Same ids db₁ db₂)
    (h' : BTreeDb.Same ids db₂ db₃) : BTreeDb.Same ids db₁ db₃ :=
  ⟨fun q hq => (h'.pages q hq).trans (h.pages q hq), h'.root.trans h.root⟩

theorem BTreeDb.Same.mono (h : BTreeDb.Same ids db db') (hs : ids' ⊆ ids) :
    BTreeDb.Same ids' db db' :=
  ⟨fun q hq => h.pages q (hs hq), h.root⟩

@[simp] theorem writePage_pages (db : BTreeDb) (p : UInt32) (page : Bytes) :
    (db.writePage p page).pages = Function.update db.pages p (some page) := rfl

@[simp] theorem writePage_rootPage (db : BTreeDb) (p : UInt32) (page : Bytes) :
    (db.writePage p page).rootPage = db.rootPage := rfl

@[simp] theorem writePage_pageCount (db : BTreeDb) (p : UInt32) (page : Bytes) :
    (db.writePage p page).pageCount = db.pageCount := rfl

@[simp] theorem writePage_freeHead (db : BTreeDb) (p : UInt32) (page : Bytes) :
    (db.writePage p page).freeHead = db.freeHead := rfl

theorem writePage_same (db : BTreeDb) (page : Bytes) (hp : p ∉ ids) :
    db.Same ids (db.writePage p page) := by
  refine ⟨fun q hq => ?_, rfl⟩
  rw [writePage_pages, Function.update_of_ne]
  intro heq
  exact hp (heq ▸ hq)

/-- The header is written, with another root or the same. -/
theorem BTreeDb.Keeps.setRoot (h : db.Keeps ids pool) (root : UInt32) :
    ({ db with rootPage := root } : BTreeDb).writeHeader.Keeps ids pool := by
  refine ⟨h.count, h.free.frame fun q hq => ?_, h.accounts⟩
  refine Function.update_of_ne ?_ _ _
  exact (h.accounts.free_bounds hq).1

theorem BTreeDb.Keeps.zero_not_mem (h : db.Keeps ids pool) : 0 ∉ ids :=
  fun h0 => (h.accounts.bounds h0).1 rfl

/-- A page in use is written. -/
theorem BTreeDb.Keeps.writePage (h : db.Keeps ids pool) (hp : p ∉ pool.free) (page : Bytes) :
    (db.writePage p page).Keeps ids pool :=
  ⟨h.count, h.free.frame (writePage_same db page hp).pages, h.accounts⟩

theorem BTreeDb.Keeps.zero_not_free (h : db.Keeps ids pool) : 0 ∉ pool.free :=
  fun h0 => (h.accounts.free_bounds h0).1 rfl

/-- The database has a tree at its root. -/
structure BTreeDb.Represents (db : BTreeDb) (t : BTree) (pool : Pool) : Prop where
  root : t.id = db.rootPage
  stored : t.Stored db
  keeps : db.Keeps t.ids pool

theorem BTreeDb.Holds.unique {n n' : NodeData} (h : db.Holds p n) (h' : db.Holds p n') : n = n' := by
  obtain ⟨-, page, hpage, hload⟩ := h
  obtain ⟨-, page', hpage', hload'⟩ := h'
  cases hpage.symm.trans hpage'
  exact Except.ok.inj (hload.symm.trans hload')

mutual

/-- The pages of a database have one tree at most. -/
theorem BTree.Stored.unique {db : BTreeDb} {t t' : BTree} (h : t.Stored db) (h' : t'.Stored db)
    (hid : t.id = t'.id) : t = t' := by
  cases t with
  | leaf id entries =>
    cases t' with
    | leaf id' entries' =>
      cases (show id = id' from hid)
      cases BTreeDb.Holds.unique h h'
      rfl
    | node id' c' =>
      cases (show id = id' from hid)
      cases BTreeDb.Holds.unique h h'.1
  | node id c =>
    cases t' with
    | leaf id' entries' =>
      cases (show id = id' from hid)
      cases BTreeDb.Holds.unique h.1 h'
    | node id' c' =>
      cases (show id = id' from hid)
      obtain ⟨hfirst, hentries⟩ := NodeData.internal.inj (BTreeDb.Holds.unique h.1 h'.1)
      rw [Chain.Stored.unique h.2 h'.2 hfirst hentries]

theorem Chain.Stored.unique {db : BTreeDb} {c c' : Chain} (h : c.Stored db) (h' : c'.Stored db)
    (hfirst : c.first.id = c'.first.id) (hentries : c.entries = c'.entries) : c = c' := by
  cases c with
  | one t =>
    cases c' with
    | one t' =>
      have hs : t'.Stored db := h'
      rw [BTree.Stored.unique (t := t) h hs hfirst]
    | cons t' k' rest' => cases hentries
  | cons t k rest =>
    cases c' with
    | one t' => cases hentries
    | cons t' k' rest' =>
      obtain ⟨he, hrest⟩ := List.cons.inj hentries
      obtain ⟨rfl, hid⟩ := InternalEntry.mk.inj he
      rw [BTree.Stored.unique h.1 h'.1 hfirst, Chain.Stored.unique h.2 h'.2 hid hrest]

end

theorem BTreeDb.Represents.unique {t t' : BTree} (h : db.Represents t pool)
    (h' : db.Represents t' pool') : t = t' ∧ pool.count = pool'.count :=
  ⟨h.stored.unique h'.stored (h.root.trans h'.root.symm),
    h.keeps.count.symm.trans h'.keeps.count⟩

theorem nodeLoad_holds {n : NodeData} (h : db.Holds p n) : nodeLoad p db = .done n db := by
  obtain ⟨-, page, hpage, hload⟩ := h
  have hread : dbReadPage p db = .done page db := by simp only [dbReadPage, hpage]
  unfold nodeLoad
  rw [Io.bind_done hread, hload]
  rfl

/-- A node that has room on a page is written there. -/
theorem nodeWrite_done {n : NodeData} (hv : n.Valid) (hs : n.size ≤ 4096) (p : UInt32)
    (db : BTreeDb) :
    ∃ page, nodeWrite p n db = .done () (db.writePage p page) ∧
      (db.writePage p page).Holds p n := by
  obtain ⟨page, hpage, hload, -⟩ := nodePage_load hv hs
  refine ⟨page, by rw [nodeWrite, hpage]; rfl, hv, page, ?_, hload⟩
  rw [writePage_pages, Function.update_self]

theorem nodeWrite_failed {n : NodeData} (hs : 4096 < n.size) (p : UInt32) (db : BTreeDb) :
    nodeWrite p n db = .failed db := by
  unfold nodeWrite
  cases hpage : nodePage n with
  | none => rfl
  | some page => exact absurd (nodePage_size hpage) (by omega)

theorem freePage_spec (next : UInt32) :
    pageGetType (freePage next) = pageTypeFree ∧ rdU32 ((freePage next).drop 8) = next := by
  have hinit := pageInit_packed pageTypeFree 0
  obtain ⟨-, hset, hframe⟩ := setBytes_spec 8 hinit.length (wrU32_length next) (by decide)
  refine ⟨?_, rdU32_of_bytesAt hset⟩
  have htype := drop_eq_of_bytesAt ((hframe 0 1 (by omega)).trans hinit.type)
  rw [List.drop_zero] at htype
  unfold freePage pageGetType
  rw [htype]
  rfl

theorem zeroPage_type : pageGetType (List.replicate btreePageSize 0) = pageTypeFree := rfl

theorem Pool.alloc_accounts (h : pool.Accounts ids) (hr : pool.HasRoom 1) (h0 : pool.count ≠ 0) :
    pool.alloc.2.Accounts (pool.alloc.1 :: ids) := by
  intro p
  have hsum := h p
  unfold Pool.alloc
  cases hf : pool.free with
  | cons q free =>
    rw [hf] at hsum
    have hroom : Pool.room { pool with free } p = pool.room p := rfl
    simp only [List.count_cons] at hsum ⊢
    rw [hroom]
    omega
  | nil =>
    have hcount : (pool.count + 1).toNat = pool.count.toNat + 1 := by
      have hr' : pool.count.toNat + 1 < 4294967296 := hr
      rw [UInt32.toNat_add, show (1 : UInt32).toNat = 1 from rfl]
      omega
    have hroom : Pool.room { free := [], count := pool.count + 1, leaked := pool.leaked } p =
        pool.room p + if p = pool.count then 1 else 0 := by
      simp only [Pool.room, ne_eq, UInt32.lt_iff_toNat_lt, hcount, ← UInt32.toNat_inj]
      have h0' : pool.count.toNat ≠ (0 : UInt32).toNat := fun he => h0 (UInt32.toNat_inj.mp he)
      split_ifs <;> omega
    simp only [hf, List.count_nil, List.count_cons, beq_iff_eq] at hsum ⊢
    rw [hroom]
    split_ifs with h₁ h₂ h₂
    · omega
    · exact absurd h₁.symm h₂
    · exact absurd h₂.symm h₁
    · omega

theorem Pool.release_accounts (h : pool.Accounts (p :: ids)) : (pool.release p).Accounts ids := by
  intro q
  have hsum := h q
  have hroom : (pool.release p).room q = pool.room q := rfl
  rw [hroom, Pool.release]
  simp only [List.count_cons] at hsum ⊢
  omega

theorem Pool.leak_accounts (h : pool.Accounts (p :: ids)) : (pool.leak p).Accounts ids := by
  intro q
  have hsum := h q
  have hroom : (pool.leak p).room q = pool.room q := rfl
  rw [hroom, Pool.leak]
  simp only [List.count_cons] at hsum ⊢
  omega

theorem BTreeDb.Keeps.leak (h : db.Keeps (p :: ids) pool) : db.Keeps ids (pool.leak p) :=
  ⟨h.count, h.free, Pool.leak_accounts h.accounts⟩

theorem Pool.alloc_count (hr : pool.HasRoom 1) :
    pool.alloc.2.count.toNat ≤ pool.count.toNat + 1 := by
  unfold Pool.alloc
  split
  · exact Nat.le_succ _
  · have hr' : pool.count.toNat + 1 < 4294967296 := hr
    show (pool.count + 1).toNat ≤ _
    rw [UInt32.toNat_add, show (1 : UInt32).toNat = 1 from rfl]
    omega

/-- A page is taken off the free list or from behind the last one. -/
theorem dbAllocPage_spec (h : db.Keeps ids pool) (hr : pool.HasRoom 1) (h0 : pool.count ≠ 0) :
    ∃ db', dbAllocPage db = .done pool.alloc.1 db' ∧
      db'.Keeps (pool.alloc.1 :: ids) pool.alloc.2 ∧ db.Same ids db' := by
  have haccounts := Pool.alloc_accounts h.accounts hr h0
  have hz := h.zero_not_mem
  have hzf := h.zero_not_free
  obtain ⟨hcount, hfree, -⟩ := h
  unfold Pool.alloc at haccounts ⊢
  cases hf : pool.free with
  | cons p free =>
    rw [hf] at hfree hzf haccounts
    obtain ⟨hhead, hp, page, hpage, htype, hnext⟩ := hfree
    have hread : dbReadPage db.freeHead db = .done page db := by
      simp only [dbReadPage, hhead, hpage]
    let db₁ : BTreeDb := { db with freeHead := rdU32 (page.drop 8) }
    refine ⟨db₁.writeHeader, ?_, ⟨hcount, hnext.frame fun q hq => ?_, haccounts⟩, ?_⟩
    · show (if db.freeHead ≠ 0 then _ else _ : Io UInt32) db = _
      rw [if_pos (by rw [hhead]; exact hp), Io.bind_done hread, if_neg (by simp [htype]), hhead]
      rfl
    · exact (writePage_same db₁ _ fun h0 => hzf (List.mem_cons_of_mem _ h0)).pages q hq
    · exact ⟨(writePage_same db₁ _ hz).pages, rfl⟩
  | nil =>
    rw [hf] at hfree haccounts
    have hhead : db.freeHead = 0 := hfree
    let db₁ : BTreeDb := { db with pageCount := db.pageCount + 1 }
    let db₂ := db₁.writePage db.pageCount (List.replicate btreePageSize 0)
    refine ⟨db₂.writeHeader, ?_, ⟨?_, hhead, haccounts⟩, ?_⟩
    · show (if db.freeHead ≠ 0 then _ else _ : Io UInt32) db = _
      rw [if_neg (by simp [hhead]), ← hcount]
      rfl
    · show db.pageCount + 1 = _
      rw [hcount]
    · have hfresh : db.pageCount ∉ ids := by
        rw [hcount]
        intro hm
        have hnot := (haccounts.nodup)
        exact (List.nodup_cons.mp hnot).1 hm
      exact ⟨fun q hq => ((writePage_same db₂ _ hz).pages q hq).trans
        ((writePage_same db₁ _ hfresh).pages q hq), rfl⟩

/-- A page that is in use, other than the root, goes to the front of the free list. -/
theorem dbFreePage_spec (h : db.Keeps (p :: ids) pool) (hroot : p ≠ db.rootPage) :
    ∃ db', dbFreePage p db = .done () db' ∧ db'.Keeps ids (pool.release p) ∧ db.Same ids db' := by
  obtain ⟨hp0, hlt⟩ := h.accounts.bounds List.mem_cons_self
  have hnf := h.accounts.not_free List.mem_cons_self
  have hni := (List.nodup_cons.mp h.accounts.nodup).1
  have hz : 0 ∉ ids := fun h0 => h.zero_not_mem (List.mem_cons_of_mem _ h0)
  have hzf := h.zero_not_free
  have haccounts := Pool.release_accounts h.accounts
  obtain ⟨hcount, hfree, -⟩ := h
  obtain ⟨htype, hnext⟩ := freePage_spec db.freeHead
  let db₁ := db.writePage p (freePage db.freeHead)
  let db₂ : BTreeDb := { db₁ with freeHead := p }
  have hpages (q : UInt32) (hq0 : q ≠ 0) (hqp : q ≠ p) :
      db₂.writeHeader.pages q = db.pages q := by
    show Function.update (Function.update db.pages p _) 0 _ q = _
    rw [Function.update_of_ne hq0, Function.update_of_ne hqp]
  refine ⟨db₂.writeHeader, ?_, ⟨hcount, ?_, haccounts⟩, fun q hq => hpages q ?_ ?_, rfl⟩
  · show (if p = 0 ∨ db.pageCount ≤ p then _ else _ : Io Unit) db = _
    rw [if_neg, if_neg hroot]
    · rfl
    · rw [hcount]
      rintro (h0 | hle)
      · exact hp0 h0
      · exact absurd hlt (UInt32.not_lt.mpr hle)
  · refine ⟨rfl, hp0, freePage db.freeHead, ?_, htype, ?_⟩
    · show Function.update (Function.update db.pages p _) 0 _ p = _
      rw [Function.update_of_ne hp0, Function.update_self]
    · rw [hnext]
      exact hfree.frame fun q hq => hpages q (fun h0 => hzf (h0 ▸ hq)) fun he => hnf (he ▸ hq)
  · exact fun h0 => hz (h0 ▸ hq)
  · exact fun he => hni (he ▸ hq)

end ToiLang