import Yjkos.Ext2Blocks
import Yjkos.Ext2Inode

/-!
# The block map of an inode

The address of a logical block by the ext2 format, and the walk of
`next_inode_block` over it.  A cursor which has delivered `n` entries holds
table `(n - 1) / e` of its level, and the level above has delivered the
number of that table: every level takes its first table from the inode and
the others from the entries of the level above.

The format says which entry of which table counts, whatever the tables hold.
What they hold is either what a disk has at their addresses or what the code
reads there, and the two agree where the tables on the way can be read.
-/

namespace Yjkos
namespace Ext2

/-! ## Tables -/

/-- A table holds `e` entries, and the block size is a power of two from 1024
on which the signed type of the block size can hold. -/
structure TableSize (fs : FsContext) (e : ℕ) : Prop where
  blocksize_eq : fs.blocksize = (4 * e : ℕ)
  power : ∃ raw, raw ≤ 20 ∧ 4 * e = 1024 * 2 ^ raw

/-- The block which is read at an address. -/
def Env.block (env : Env) (addr : ℕ) : Buffer where
  size := toSize env.fs.blocksize
  data :=
    match env.disk (wrap (addr * (toSize env.fs.blocksize / diskBlockSize)))
        (wrap (1 * (toSize env.fs.blocksize / diskBlockSize))) with
    | .ok data => data
    | .error _ => fun _ => 0

/-- Entry `i` of the table at an address, as it is read. -/
def Env.entry (env : Env) (addr i : ℕ) : ℕ :=
  u32leAt (env.block addr).data (4 * i)

/-- Entry `i` of the table at an address, as the disk holds it. -/
def tableEntry (content : ℕ → BitVec 8) (e addr i : ℕ) : ℕ :=
  u32leAt content (addr * (4 * e) + 4 * i)

/-! ## The format -/

section Format

variable (entry : ℕ → ℕ → ℕ) (e : ℕ) (r : InodeRecord)

/-- The address which the ext2 format assigns to a logical block, with `e`
entries in a table. -/
def blockAddress (k : ℕ) : ℕ :=
  if k < 12 then r.directBlockPtrs.getD k 0
  else if k - 12 < e then entry r.singlyIndirectTable (k - 12)
  else if k - 12 - e < e * e then
    let j := k - 12 - e
    entry (entry r.doublyindirecttable (j / e)) (j % e)
  else
    let j := k - 12 - e - e * e
    entry (entry (entry r.triplyindirecttable (j / (e * e))) (j / e % e))
      (j % e)

/-- The pointers on the way to a logical block are not zero. -/
def Mapped (k : ℕ) : Prop :=
  blockAddress entry e r k ≠ 0 ∧
    if k < 12 then True
    else if k - 12 < e then r.singlyIndirectTable ≠ 0
    else if k - 12 - e < e * e then
      r.doublyindirecttable ≠ 0 ∧
        entry r.doublyindirecttable ((k - 12 - e) / e) ≠ 0
    else
      let j := k - 12 - e - e * e
      j < e * e * e ∧ r.triplyindirecttable ≠ 0 ∧
        entry r.triplyindirecttable (j / (e * e)) ≠ 0 ∧
        entry (entry r.triplyindirecttable (j / (e * e))) (j / e % e) ≠ 0

/-- The first `blocks` logical blocks are mapped. -/
def HoleFree (blocks : ℕ) : Prop :=
  ∀ k, k < blocks → Mapped entry e r k

end Format

/-! ## The levels -/

section Levels

variable (entry : ℕ → ℕ → ℕ) (e : ℕ) (r : InodeRecord)

def triplyPtr (l : ℕ) : ℕ := entry r.triplyindirecttable l

def doublyTable : ℕ → ℕ
  | 0 => r.doublyindirecttable
  | d + 1 => triplyPtr entry r d

def doublyPtr (m : ℕ) : ℕ := entry (doublyTable entry r (m / e)) (m % e)

def singlyTable : ℕ → ℕ
  | 0 => r.singlyIndirectTable
  | t + 1 => doublyPtr entry e r t

def singlyPtr (n : ℕ) : ℕ := entry (singlyTable entry e r (n / e)) (n % e)

/-- The table of the doubly indirect level is there. -/
def DoublyThere (d : ℕ) : Prop :=
  doublyTable entry r d ≠ 0 ∧ (0 < d → d ≤ e ∧ r.triplyindirecttable ≠ 0)

/-- The table of the singly indirect level is there. -/
def SinglyThere (t : ℕ) : Prop :=
  singlyTable entry e r t ≠ 0 ∧ (0 < t → DoublyThere entry e r ((t - 1) / e))

/-- The tables on the way to the entries of table `d` of the doubly indirect
level. -/
inductive DoublyWay (d : ℕ) : ℕ → Prop where
  | triply (later : 0 < d) (bound : d ≤ e)
      (there : r.triplyindirecttable ≠ 0) : DoublyWay d r.triplyindirecttable
  | table (there : DoublyThere entry e r d) :
      DoublyWay d (doublyTable entry r d)

/-- The tables on the way to the entries of table `t` of the singly indirect
level. -/
inductive SinglyWay (t : ℕ) : ℕ → Prop where
  | above {addr : ℕ} (later : 0 < t)
      (way : DoublyWay entry e r ((t - 1) / e) addr) : SinglyWay t addr
  | table (there : SinglyThere entry e r t) :
      SinglyWay t (singlyTable entry e r t)

/-- The table at the address is on the way to a logical block.  The way ends at
a pointer which is zero. -/
def TableTo (k addr : ℕ) : Prop :=
  12 ≤ k ∧ SinglyWay entry e r ((k - 12) / e) addr

end Levels

variable {env : Env} {entry : ℕ → ℕ → ℕ} {e : ℕ} {r : InodeRecord}
  {content : ℕ → BitVec 8}

/-- Nothing lies above the first table of the doubly indirect level. -/
theorem doublyThere_zero :
    DoublyThere entry e r 0 ↔ r.doublyindirecttable ≠ 0 :=
  and_iff_left fun h => absurd h (lt_irrefl 0)

theorem singlyThere_zero :
    SinglyThere entry e r 0 ↔ r.singlyIndirectTable ≠ 0 :=
  and_iff_left fun h => absurd h (lt_irrefl 0)

theorem TableSize.ge {fs : FsContext} (h : TableSize fs e) : 1024 ≤ 4 * e := by
  obtain ⟨raw, -, hraw⟩ := h.power
  have hpow : 0 < 2 ^ raw := Nat.pos_of_ne_zero (by positivity)
  omega

theorem TableSize.pos {fs : FsContext} (h : TableSize fs e) : 0 < e := by
  have hge := h.ge
  omega

theorem TableSize.le {fs : FsContext} (h : TableSize fs e) :
    4 * e ≤ 1073741824 := by
  obtain ⟨raw, hraw, heq⟩ := h.power
  have hpow : 2 ^ raw ≤ 2 ^ 20 := Nat.pow_le_pow_right (by omega) hraw
  have hvalue : 2 ^ 20 = 1048576 := by norm_num
  omega

theorem TableSize.toSize_eq {fs : FsContext} (h : TableSize fs e) :
    toSize fs.blocksize = 4 * e := by
  have hle := h.le
  rw [h.blocksize_eq]
  exact toSize_natCast (by omega)

theorem TableSize.sectors {fs : FsContext} (h : TableSize fs e) :
    4 * e % diskBlockSize = 0 := by
  obtain ⟨raw, -, heq⟩ := h.power
  have hfactor : 1024 * 2 ^ raw = diskBlockSize * (2 * 2 ^ raw) := by
    unfold diskBlockSize
    ring
  rw [heq, hfactor]
  exact Nat.mul_mod_right _ _

theorem TableSize.sectors_pos {fs : FsContext} (h : TableSize fs e) :
    2 ≤ 4 * e / diskBlockSize := by
  obtain ⟨raw, -, heq⟩ := h.power
  have hpow : 1 ≤ 2 ^ raw := Nat.one_le_two_pow
  unfold diskBlockSize
  omega

theorem TableSize.sectors_mul {fs : FsContext} (h : TableSize fs e) :
    4 * e / diskBlockSize * diskBlockSize = 4 * e :=
  Nat.div_mul_cancel (Nat.dvd_of_mod_eq_zero h.sectors)

theorem blockAddress_of_ge (he : 0 < e) {k : ℕ} (hk : 12 ≤ k) :
    blockAddress entry e r k = singlyPtr entry e r (k - 12) := by
  unfold blockAddress singlyPtr
  rw [if_neg (by omega)]
  generalize k - 12 = n
  by_cases hsingly : n < e
  · rw [if_pos hsingly, Nat.div_eq_of_lt hsingly, Nat.mod_eq_of_lt hsingly]
    rfl
  · rw [if_neg hsingly]
    obtain ⟨j, rfl⟩ : ∃ j, n = e + j := ⟨n - e, by omega⟩
    have hdiv : (e + j) / e = j / e + 1 := Nat.add_div_left j he
    rw [Nat.add_sub_cancel_left, hdiv, Nat.add_mod_left, singlyTable,
      doublyPtr]
    by_cases hdoubly : j < e * e
    · have hlt : j / e < e := Nat.div_lt_of_lt_mul hdoubly
      rw [if_pos hdoubly, Nat.div_eq_of_lt hlt, Nat.mod_eq_of_lt hlt]
      rfl
    · rw [if_neg hdoubly]
      obtain ⟨i, rfl⟩ : ∃ i, j = e * e + i := ⟨j - e * e, by omega⟩
      have hrow : (e * e + i) / e = e + i / e := Nat.mul_add_div he e i
      rw [Nat.add_sub_cancel_left, hrow, Nat.add_div_left _ he,
        Nat.add_mod_left, Nat.mul_add_mod, Nat.div_div_eq_div_mul]
      rfl

theorem Mapped.there (he : 0 < e) {k : ℕ} (hk : 12 ≤ k)
    (h : Mapped entry e r k) : SinglyThere entry e r ((k - 12) / e) := by
  have hrest := h.2
  rw [if_neg (by omega)] at hrest
  revert hrest
  generalize k - 12 = n
  intro hrest
  by_cases hsingly : n < e
  · rw [if_pos hsingly] at hrest
    rw [Nat.div_eq_of_lt hsingly]
    exact singlyThere_zero.2 hrest
  · rw [if_neg hsingly] at hrest
    obtain ⟨j, rfl⟩ : ∃ j, n = e + j := ⟨n - e, by omega⟩
    have hdiv : (e + j) / e = j / e + 1 := Nat.add_div_left j he
    rw [Nat.add_sub_cancel_left] at hrest
    rw [hdiv]
    by_cases hdoubly : j < e * e
    · have hlt : j / e < e := Nat.div_lt_of_lt_mul hdoubly
      rw [if_pos hdoubly] at hrest
      refine ⟨?_, fun _ => ?_⟩
      · show entry (doublyTable entry r (j / e / e)) (j / e % e) ≠ 0
        rw [Nat.div_eq_of_lt hlt, Nat.mod_eq_of_lt hlt]
        exact hrest.2
      · rw [Nat.add_sub_cancel, Nat.div_eq_of_lt hlt]
        exact doublyThere_zero.2 hrest.1
    · rw [if_neg hdoubly] at hrest
      obtain ⟨i, rfl⟩ : ∃ i, j = e * e + i := ⟨j - e * e, by omega⟩
      have hrow : (e * e + i) / e = e + i / e := Nat.mul_add_div he e i
      have htable : (e + i / e) / e = i / (e * e) + 1 := by
        rw [Nat.add_div_left _ he, Nat.div_div_eq_div_mul]
      rw [Nat.add_sub_cancel_left] at hrest
      obtain ⟨hlt, htriply, hfirst, hsecond⟩ := hrest
      refine ⟨?_, fun _ => ?_⟩
      · show entry (doublyTable entry r ((e * e + i) / e / e))
          ((e * e + i) / e % e) ≠ 0
        rw [hrow, htable, Nat.add_mod_left]
        exact hsecond
      · rw [Nat.add_sub_cancel, hrow, htable]
        refine ⟨hfirst, fun _ => ⟨?_, htriply⟩⟩
        have hlt' : i / (e * e) < e := Nat.div_lt_of_lt_mul hlt
        omega

theorem mapped_iff (he : 0 < e) {k : ℕ} (hk : 12 ≤ k) :
    Mapped entry e r k ↔ SinglyThere entry e r ((k - 12) / e) ∧
      singlyPtr entry e r (k - 12) ≠ 0 := by
  refine ⟨fun h => ⟨h.there he hk, ?_⟩, ?_⟩
  · rw [← blockAddress_of_ge he hk]
    exact h.1
  rintro ⟨hthere, hptr⟩
  refine ⟨by rwa [blockAddress_of_ge he hk], ?_⟩
  rw [if_neg (by omega)]
  clear hptr
  revert hthere
  generalize k - 12 = n
  intro hthere
  by_cases hsingly : n < e
  · rw [if_pos hsingly]
    rw [Nat.div_eq_of_lt hsingly] at hthere
    exact hthere.1
  rw [if_neg hsingly]
  obtain ⟨j, rfl⟩ : ∃ j, n = e + j := ⟨n - e, by omega⟩
  have hdiv : (e + j) / e = j / e + 1 := Nat.add_div_left j he
  rw [hdiv] at hthere
  obtain ⟨htable, hthere⟩ := hthere
  have hthere := hthere (Nat.succ_pos _)
  rw [Nat.add_sub_cancel] at hthere
  rw [Nat.add_sub_cancel_left]
  by_cases hdoubly : j < e * e
  · have hlt : j / e < e := Nat.div_lt_of_lt_mul hdoubly
    have hentry : doublyPtr entry e r (j / e) =
        entry r.doublyindirecttable (j / e) := by
      unfold doublyPtr
      rw [Nat.div_eq_of_lt hlt, Nat.mod_eq_of_lt hlt]
      rfl
    rw [if_pos hdoubly]
    rw [Nat.div_eq_of_lt hlt] at hthere
    exact ⟨hthere.1, fun hnull => htable (hentry.trans hnull)⟩
  · rw [if_neg hdoubly]
    obtain ⟨i, rfl⟩ : ∃ i, j = e * e + i := ⟨j - e * e, by omega⟩
    have hrow : (e * e + i) / e = e + i / e := Nat.mul_add_div he e i
    have htable' : (e + i / e) / e = i / (e * e) + 1 := by
      rw [Nat.add_div_left _ he, Nat.div_div_eq_div_mul]
    rw [hrow, htable'] at hthere
    obtain ⟨hbound, htriply⟩ := hthere.2 (Nat.succ_pos _)
    have hentry : doublyPtr entry e r ((e * e + i) / e) =
        entry (entry r.triplyindirecttable (i / (e * e)))
          (i / e % e) := by
      unfold doublyPtr
      rw [hrow, htable', Nat.add_mod_left]
      rfl
    rw [Nat.add_sub_cancel_left]
    refine ⟨?_, htriply, hthere.1, fun hnull => htable (hentry.trans hnull)⟩
    exact (Nat.div_lt_iff_lt_mul (Nat.mul_pos he he)).1 hbound |>.trans_eq
      (Nat.mul_assoc e e e).symm

/-- Without indirect tables there are none on the way. -/
theorem not_tableTo {k addr : ℕ} (hsingly : r.singlyIndirectTable = 0)
    (hdoubly : r.doublyindirecttable = 0)
    (htriply : r.triplyindirecttable = 0) :
    ¬TableTo entry e r k addr := by
  have hnone : ∀ d, ¬DoublyThere entry e r d := by
    rintro d ⟨hthere, habove⟩
    cases d with
    | zero => exact hthere hdoubly
    | succ l => exact (habove (Nat.succ_pos l)).2 htriply
  rintro ⟨-, hway⟩
  cases hway with
  | above _ way =>
      cases way with
      | triply _ _ there => exact there htriply
      | table there => exact hnone _ there
  | table there =>
      obtain ⟨hthere, habove⟩ := there
      generalize (k - 12) / e = t at hthere habove
      cases t with
      | zero => exact hthere hsingly
      | succ m => exact hnone _ (habove (Nat.succ_pos m))

/-! ## What the tables hold -/

section Agreement

variable {given : ℕ → ℕ → ℕ} {d t k addr : ℕ}

/-- Two readings of the tables agree on some of them. -/
def AgreeOn (entry given : ℕ → ℕ → ℕ) (e : ℕ) (tables : ℕ → Prop) : Prop :=
  ∀ addr, tables addr → ∀ i < e, given addr i = entry addr i

theorem AgreeOn.above (ht : 0 < t)
    (h : AgreeOn entry given e (SinglyWay entry e r t)) :
    AgreeOn entry given e (DoublyWay entry e r ((t - 1) / e)) :=
  fun _ hway => h _ (.above ht hway)

theorem AgreeOn.doublyTable_eq
    (h : AgreeOn entry given e (DoublyWay entry e r d))
    (hd : 0 < d → d ≤ e ∧ r.triplyindirecttable ≠ 0) :
    doublyTable given r d = doublyTable entry r d := by
  cases d with
  | zero => rfl
  | succ l =>
      obtain ⟨hbound, hthere⟩ := hd (Nat.succ_pos l)
      exact h _ (.triply (Nat.succ_pos l) hbound hthere) l hbound

theorem AgreeOn.doublyThere_iff
    (h : AgreeOn entry given e (DoublyWay entry e r d)) :
    DoublyThere given e r d ↔ DoublyThere entry e r d :=
  and_congr_left fun hd => by rw [h.doublyTable_eq hd]

theorem AgreeOn.doublyPtr_eq (he : 0 < e) {m : ℕ}
    (h : AgreeOn entry given e (DoublyWay entry e r (m / e)))
    (hthere : DoublyThere entry e r (m / e)) :
    doublyPtr given e r m = doublyPtr entry e r m := by
  unfold doublyPtr
  rw [h.doublyTable_eq hthere.2]
  exact h _ (.table hthere) _ (Nat.mod_lt m he)

theorem AgreeOn.singlyTable_eq (he : 0 < e)
    (h : AgreeOn entry given e (SinglyWay entry e r t))
    (ht : 0 < t → DoublyThere entry e r ((t - 1) / e)) :
    singlyTable given e r t = singlyTable entry e r t := by
  cases t with
  | zero => rfl
  | succ m =>
      exact (h.above (Nat.succ_pos m)).doublyPtr_eq he (ht (Nat.succ_pos m))

theorem AgreeOn.singlyThere_iff (he : 0 < e)
    (h : AgreeOn entry given e (SinglyWay entry e r t)) :
    SinglyThere given e r t ↔ SinglyThere entry e r t := by
  have habove : (0 < t → DoublyThere given e r ((t - 1) / e)) ↔
      (0 < t → DoublyThere entry e r ((t - 1) / e)) :=
    forall_congr' fun ht => (h.above ht).doublyThere_iff
  unfold SinglyThere
  rw [habove]
  exact and_congr_left fun ht => by rw [h.singlyTable_eq he ht]

theorem AgreeOn.singlyPtr_eq (he : 0 < e) {n : ℕ}
    (h : AgreeOn entry given e (SinglyWay entry e r (n / e)))
    (hthere : SinglyThere entry e r (n / e)) :
    singlyPtr given e r n = singlyPtr entry e r n := by
  unfold singlyPtr
  rw [h.singlyTable_eq he hthere.2]
  exact h _ (.table hthere) _ (Nat.mod_lt n he)

/-- The tables on the way are the same. -/
theorem AgreeOn.doublyWay_iff
    (h : AgreeOn entry given e (DoublyWay entry e r d)) :
    DoublyWay given e r d addr ↔ DoublyWay entry e r d addr := by
  constructor
  · intro hway
    cases hway with
    | triply later bound there => exact .triply later bound there
    | table there =>
        have hthere := h.doublyThere_iff.1 there
        rw [h.doublyTable_eq hthere.2]
        exact .table hthere
  · intro hway
    cases hway with
    | triply later bound there => exact .triply later bound there
    | table there =>
        rw [← h.doublyTable_eq there.2]
        exact .table (h.doublyThere_iff.2 there)

theorem AgreeOn.singlyWay_iff (he : 0 < e)
    (h : AgreeOn entry given e (SinglyWay entry e r t)) :
    SinglyWay given e r t addr ↔ SinglyWay entry e r t addr := by
  constructor
  · intro hway
    cases hway with
    | above later way =>
        exact .above later ((h.above later).doublyWay_iff.1 way)
    | table there =>
        have hthere := (h.singlyThere_iff he).1 there
        rw [h.singlyTable_eq he hthere.2]
        exact .table hthere
  · intro hway
    cases hway with
    | above later way =>
        exact .above later ((h.above later).doublyWay_iff.2 way)
    | table there =>
        rw [← h.singlyTable_eq he there.2]
        exact .table ((h.singlyThere_iff he).2 there)

theorem AgreeOn.tableTo_iff (he : 0 < e)
    (h : AgreeOn entry given e (TableTo entry e r k)) :
    TableTo given e r k addr ↔ TableTo entry e r k addr :=
  and_congr_right fun hk =>
    AgreeOn.singlyWay_iff he fun addr hway => h addr ⟨hk, hway⟩

theorem AgreeOn.blockAddress_eq (he : 0 < e)
    (h : AgreeOn entry given e (TableTo entry e r k))
    (hmapped : Mapped entry e r k) :
    blockAddress given e r k = blockAddress entry e r k := by
  rcases Nat.lt_or_ge k 12 with hlt | hge
  · unfold blockAddress
    rw [if_pos hlt, if_pos hlt]
  · rw [blockAddress_of_ge he hge, blockAddress_of_ge he hge]
    exact AgreeOn.singlyPtr_eq he (fun addr hway => h addr ⟨hge, hway⟩)
      (hmapped.there he hge)

theorem AgreeOn.mapped_iff (he : 0 < e)
    (h : AgreeOn entry given e (TableTo entry e r k)) :
    Mapped given e r k ↔ Mapped entry e r k := by
  rcases Nat.lt_or_ge k 12 with hlt | hge
  · unfold Mapped blockAddress
    rw [if_pos hlt, if_pos hlt, if_pos hlt, if_pos hlt]
  · have hway : AgreeOn entry given e (SinglyWay entry e r ((k - 12) / e)) :=
      fun addr hway => h addr ⟨hge, hway⟩
    rw [Ext2.mapped_iff he hge, Ext2.mapped_iff he hge, hway.singlyThere_iff he]
    exact and_congr_right fun hthere => by rw [hway.singlyPtr_eq he hthere]

end Agreement

/-! ## Reading -/

/-- The block at an address can be read. -/
def Env.Readable (env : Env) (addr : ℕ) : Prop :=
  ∃ data, env.disk (wrap (addr * (toSize env.fs.blocksize / diskBlockSize)))
    (wrap (1 * (toSize env.fs.blocksize / diskBlockSize))) = .ok data

/-- The allocations succeed, and so do the reads of some blocks. -/
structure Env.ReadsAll (env : Env) (tables : ℕ → Prop) : Prop where
  memory : ∀ n, env.memory n = true
  disk : ∀ addr, tables addr → env.Readable addr

theorem Env.ReadsAll.mono {tables fewer : ℕ → Prop} (h : env.ReadsAll tables)
    (hfewer : ∀ addr, fewer addr → tables addr) : env.ReadsAll fewer :=
  ⟨h.memory, fun addr haddr => h.disk addr (hfewer addr haddr)⟩

theorem Env.ReadsAll.above {t : ℕ}
    (h : env.ReadsAll (SinglyWay entry e r t)) (ht : 0 < t) :
    env.ReadsAll (DoublyWay entry e r ((t - 1) / e)) :=
  h.mono fun _ hway => .above ht hway

/-- Some blocks have addresses on the disk, whose sectors are counted with 32
bits, and are read as the disk holds them. -/
structure Env.Delivers (env : Env) (e : ℕ) (content : ℕ → BitVec 8)
    (addr count : ℕ) : Prop where
  onDisk : (addr + count) * (4 * e / diskBlockSize) ≤ 4294967296
  read : ∃ data, env.disk (addr * (4 * e / diskBlockSize))
      (count * (4 * e / diskBlockSize)) = .ok data ∧
    ∀ i, i < count * (4 * e) → data i = content (addr * (4 * e) + i)

/-- The products of `read_blocks` do not wrap. -/
theorem Env.Delivers.sectors_read (hsize : TableSize env.fs e)
    {addr count : ℕ} (h : env.Delivers e content addr count)
    (hpos : 0 < count) (hsmall : count * (4 * e) < 4294967296) :
    ∃ data, env.disk
        (wrap (addr * (toSize env.fs.blocksize / diskBlockSize)))
        (wrap (count * (toSize env.fs.blocksize / diskBlockSize))) = .ok data ∧
      ∀ i, i < count * (4 * e) → data i = content (addr * (4 * e) + i) := by
  obtain ⟨honDisk, data, hread, hdata⟩ := h
  have hsome : 0 < count * (4 * e / diskBlockSize) :=
    Nat.mul_pos hpos (by have hsectors := hsize.sectors_pos; omega)
  have hfew : count * (4 * e / diskBlockSize) ≤ count * (4 * e) :=
    Nat.mul_le_mul_left count (Nat.div_le_self _ _)
  rw [Nat.add_mul] at honDisk
  rw [hsize.toSize_eq, wrap_of_lt (by omega), wrap_of_lt (by omega)]
  exact ⟨data, hread, hdata⟩

theorem Env.Delivers.block_read (hsize : TableSize env.fs e) {addr : ℕ}
    (h : env.Delivers e content addr 1) :
    ∃ data, env.disk
        (wrap (addr * (toSize env.fs.blocksize / diskBlockSize)))
        (wrap (1 * (toSize env.fs.blocksize / diskBlockSize))) = .ok data ∧
      ∀ i, i < 4 * e → data i = content (addr * (4 * e) + i) := by
  have hle := hsize.le
  obtain ⟨data, hread, hdata⟩ :=
    h.sectors_read hsize Nat.one_pos (by omega)
  exact ⟨data, hread, fun i hi => hdata i (by omega)⟩

theorem Env.Delivers.readable (hsize : TableSize env.fs e) {addr : ℕ}
    (h : env.Delivers e content addr 1) : env.Readable addr := by
  obtain ⟨data, hread, -⟩ := h.block_read hsize
  exact ⟨data, hread⟩

theorem Env.Delivers.block_data (hsize : TableSize env.fs e) {addr i : ℕ}
    (h : env.Delivers e content addr 1) (hi : i < 4 * e) :
    (env.block addr).data i = content (addr * (4 * e) + i) := by
  obtain ⟨data, hread, hdata⟩ := h.block_read hsize
  unfold Env.block
  rw [hread]
  exact hdata i hi

/-- What is read of tables which are delivered is what they hold. -/
theorem agreeOn_of_delivers (hsize : TableSize env.fs e)
    {tables : ℕ → Prop}
    (h : ∀ addr, tables addr → env.Delivers e content addr 1) :
    AgreeOn (tableEntry content e) env.entry e tables := by
  intro addr haddr i hi
  unfold Env.entry tableEntry
  refine u32leAt_congr fun j hj => ?_
  rw [(h addr haddr).block_data hsize (by omega), Nat.add_assoc]

/-! ## Partitions -/

section Partition

open Disk

/-- The bytes of a partition. -/
def partitionBytes (disk : Ldisk) (content : ℕ → BitVec 8) : ℕ → BitVec 8 :=
  fun i => content (disk.startblockaddr * diskBlockSize + i)

/-- A partition delivers the blocks which it holds, where the disk reads
them. -/
theorem delivers_of_partition {errno : ℤ → Errno} {pdisk : Pdisk}
    {disk : Ldisk} {buf : ℕ → BitVec 8}
    (hdisk : env.disk = diskReadOf errno pdisk disk buf)
    (hsector : pdisk.blockSize = diskBlockSize)
    (hend : disk.startblockaddr + disk.blockCount ≤ 4294967296)
    (hlimit : disk.blockCount < 4294967296) (hsome : disk.blockCount ≠ 0)
    {addr count : ℕ} (hpos : 0 < count * (4 * e / diskBlockSize))
    (hsmall : count * (4 * e / diskBlockSize) < 2147483648)
    (hinside : (addr + count) * (4 * e / diskBlockSize) ≤ disk.blockCount)
    (hsize : TableSize env.fs e)
    (hread : 0 ≤ pdisk.read ⟨disk.startblockaddr +
      addr * (4 * e / diskBlockSize), count * (4 * e / diskBlockSize)⟩) :
    env.Delivers e (partitionBytes disk pdisk.content) addr count := by
  have hmul := hsize.sectors_mul
  refine ⟨hinside.trans hlimit.le, ?_⟩
  rw [Nat.add_mul] at hinside
  have hblocks : count * (4 * e / diskBlockSize) * diskBlockSize =
      count * (4 * e) := by rw [Nat.mul_assoc, hmul]
  have hstart : addr * (4 * e / diskBlockSize) * diskBlockSize =
      addr * (4 * e) := by rw [Nat.mul_assoc, hmul]
  generalize addr * (4 * e / diskBlockSize) = first at *
  generalize count * (4 * e / diskBlockSize) = sectors at *
  have hwrap : wrap (disk.startblockaddr + first) =
      disk.startblockaddr + first := wrap_of_lt (by omega)
  have hunclipped : Unclipped disk first sectors := by
    unfold Unclipped
    rw [if_neg hsome]
    exact hinside
  have hexact := @ldiskReadExact_unclipped pdisk disk buf first sectors
    (by omega) hlimit (by omega) (by omega) hpos.ne' hunclipped
  rw [hwrap, if_neg (by omega)] at hexact
  refine ⟨pdisk.fill buf [⟨disk.startblockaddr + first, sectors⟩], ?_, ?_⟩
  · rw [hdisk]
    unfold diskReadOf
    rw [hexact]
    exact if_neg (lt_irrefl 0)
  · intro i hi
    have hbyte : i < sectors * pdisk.blockSize := by
      rw [hsector, hblocks]
      exact hi
    show (if i < sectors * pdisk.blockSize then
      pdisk.content ((disk.startblockaddr + first) * pdisk.blockSize + i)
      else buf i) = _
    rw [if_pos hbyte, hsector, Nat.add_mul, hstart, Nat.add_assoc]
    rfl

end Partition

end Ext2
end Yjkos
