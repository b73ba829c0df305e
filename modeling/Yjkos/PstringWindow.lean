import Yjkos.Pstring
import Yjkos.Tlb

/-!
# The window of the physical copies

The functions of `kernel/lib/pstring.c` map one physical page after the other
at `ARCH_SCRATCH_MAP_BASE` and copy bytes from or to there.  Here every byte
goes through the page tables, which are kept apart from the physical bytes.
-/

namespace Yjkos
namespace Pstring
namespace Window

open Mmu
open Ata (copyBytes)

/-- The processor's translation of an address of the kernel. -/
def translate (m : Tables) (virt : ℕ) (flags : BitVec 8) : Except Fault ℕ :=
  match archMmuEmulate m virt flags false with
  | .ok frame => .ok (frame + virt % archPageSize)
  | .error _ => .error .wildPointer

/-- `vmemcpy` with the source in mapped memory. -/
def vmemcpyFrom (m : Tables) (phys : ℕ → BitVec 8) :
    ℕ → ℕ → ℕ → (ℕ → BitVec 8) → Except Fault (ℕ → BitVec 8)
  | _, _, 0, memory => .ok memory
  | dest, virt, n + 1, memory => do
      let address ← translate m virt mapProtRead
      vmemcpyFrom m phys (dest + 1) (virt + 1) n
        (Function.update memory dest (phys address))

/-- `vmemcpy` and `vmemset` with the destination in mapped memory: the bytes
are given one by one. -/
def vmemcpyTo (m : Tables) (bytes : ℕ → BitVec 8) :
    ℕ → ℕ → ℕ → (ℕ → BitVec 8) → Except Fault (ℕ → BitVec 8)
  | _, _, 0, phys => .ok phys
  | virt, i, n + 1, phys => do
      let address ← translate m virt mapProtWrite
      vmemcpyTo m bytes (virt + 1) (i + 1) n
        (Function.update phys address (bytes i))

/-- The loop which the three functions have in common.  `chunk` is given the
address in the window, the number of bytes in front of the piece and its
length. -/
def pageLoop {σ : Type} (chunk : Tables → ℕ → ℕ → ℕ → σ → Except Fault σ)
    (cacheInhibit : Bool) (len : ℕ) :
    ℕ → ℕ → ℕ → ℕ → Tables → σ → Except Fault (Tables × σ)
  | 0, _, _, _, _, _ => .error .outOfFuel
  | fuel + 1, page, offset, i, m, s =>
      if i < len then do
        let copylen := min (len - i) (archPageSize - offset)
        let m ← archMmuScratchMap m page cacheInhibit
        let s ← chunk m (scratchMapBase + offset) i copylen s
        pageLoop chunk cacheInhibit len fuel (wrap (page + archPageSize)) 0
          (i + copylen) m s
      else .ok (m, s)

def overPages {σ : Type} (chunk : Tables → ℕ → ℕ → ℕ → σ → Except Fault σ)
    (cacheInhibit : Bool) (physaddr len : ℕ) (m : Tables) (s : σ) :
    Except Fault (Tables × σ) :=
  let page := alignDown physaddr archPageSize
  pageLoop chunk cacheInhibit len (len + 1) page (physaddr - page) 0 m s

/-- Gives the memory of the caller. -/
def pmemcpyIn (m : Tables) (phys memory : ℕ → BitVec 8) (dest src len : ℕ)
    (cacheInhibit : Bool) : Except Fault (Tables × (ℕ → BitVec 8)) :=
  overPages (fun m virt i n memory =>
    vmemcpyFrom m phys (dest + i) virt n memory) cacheInhibit src len m memory

/-- Gives the physical memory. -/
def pmemcpyOut (m : Tables) (phys memory : ℕ → BitVec 8) (dest src len : ℕ)
    (cacheInhibit : Bool) : Except Fault (Tables × (ℕ → BitVec 8)) :=
  overPages (fun m virt i n phys =>
    vmemcpyTo m memory virt (src + i) n phys) cacheInhibit dest len m phys

def pmemset (m : Tables) (phys : ℕ → BitVec 8) (dest : ℕ) (byte : ℤ)
    (len : ℕ) (cacheInhibit : Bool) :
    Except Fault (Tables × (ℕ → BitVec 8)) :=
  overPages (fun m virt i n phys =>
    vmemcpyTo m (fun _ => BitVec.ofInt 8 byte) virt i n phys)
    cacheInhibit dest len m phys

section Mapping

variable {m m' : Tables}

/-- The directory entry which the window needs. -/
structure Prepared (m : Tables) : Prop where
  present : has (m.pagedir scratchPde) flagP = true
  write : has (m.pagedir scratchPde) flagRw = true

/-- The window shows one physical page, for reading and for writing. -/
def Shows (m : Tables) (page : ℕ) : Prop :=
  ∀ offset < archPageSize, ∀ flags,
    translate m (scratchMapBase + offset) flags = .ok (page + offset)

theorem scratchMapBase_eq : scratchMapBase = 4290768896 := by decide

theorem pdeIndex_window {offset : ℕ} (h : offset < archPageSize) :
    pdeIndex (scratchMapBase + offset) = scratchPde := by
  have hpde : scratchPde = 1022 := by decide
  unfold archPageSize at h
  rw [pdeIndex_eq (by rw [scratchMapBase_eq]; omega), scratchMapBase_eq, hpde]
  omega

theorem pteIndex_window {offset : ℕ} (h : offset < archPageSize) :
    pteIndex (scratchMapBase + offset) = scratchPte := by
  have hpte : scratchPte = 1023 := by decide
  unfold archPageSize at h
  rw [pteIndex_eq, scratchMapBase_eq, hpte]
  omega

theorem has_flagRw_scratchEntry (physaddr : ℕ) (cacheInhibit : Bool) :
    has (scratchEntry physaddr cacheInhibit) flagRw = true := by
  have hbit : (scratchEntry physaddr cacheInhibit &&& flagRw).getLsbD 1 =
      true := by
    simp [scratchEntry, flagRw]
  unfold has
  rw [bne_iff_ne]
  intro hzero
  rw [hzero] at hbit
  simp at hbit

/-- The entry of the window makes it show its page. -/
theorem Prepared.shows (h : Prepared m) {page : ℕ} {cacheInhibit : Bool}
    (hpage : page < 4294967296) (haligned : page % archPageSize = 0)
    (hentry : m.entry scratchPde scratchPte =
      scratchEntry page cacheInhibit) : Shows m page := by
  intro offset hoffset flags
  have hbase : (scratchMapBase + offset) % archPageSize = offset := by
    rw [scratchMapBase_eq]
    unfold archPageSize at hoffset ⊢
    omega
  have hpresent : has (scratchEntry page cacheInhibit) flagP = true := by
    rw [scratchEntry_eq]
    exact has_flagP_mappedEntry ..
  have hframe : frameOf (scratchEntry page cacheInhibit) = page := by
    rw [scratchEntry_eq]
    exact frameOf_mappedEntry hpage haligned ..
  have hemulate : archMmuEmulate m (scratchMapBase + offset) flags false =
      .ok page := by
    unfold archMmuEmulate
    rw [pdeIndex_window hoffset, pteIndex_window hoffset, hentry]
    simp [h.present, h.write, hpresent, has_flagRw_scratchEntry, hframe]
  rw [translate, hemulate]
  dsimp only
  rw [hbase]

theorem Prepared.sets (h : Prepared m) {page : ℕ} {cacheInhibit : Bool}
    (hpage : page < 4294967296) (haligned : page % archPageSize = 0)
    (hsets : m.Sets m' scratchMapBase (scratchEntry page cacheInhibit)) :
    Shows m' page ∧ Prepared m' := by
  have hprepared : Prepared m' :=
    ⟨hsets.pagedir ▸ h.present, hsets.pagedir ▸ h.write⟩
  exact ⟨hprepared.shows hpage haligned hsets.entry_eq, hprepared⟩

/-- `arch_mmu_scratch_map` moves the window and nothing else. -/
theorem Prepared.scratchMap (h : Prepared m) {page : ℕ}
    (hpage : page < 4294967296) (haligned : page % archPageSize = 0)
    (cacheInhibit : Bool) :
    ∃ m', archMmuScratchMap m page cacheInhibit = .ok m' ∧
      Shows m' page ∧ Prepared m' := by
  have htabled : m.Tabled scratchMapBase := ⟨h.present, by decide⟩
  have hsets := sets_setEntry htabled (by decide)
    (scratchEntry page cacheInhibit)
  have hdvd : isAligned page archPageSize = true :=
    isAligned_iff.mpr (Nat.dvd_of_mod_eq_zero haligned)
  unfold archMmuScratchMap
  rw [hdvd, h.present]
  dsimp only [cAssert_true, ok_bind]
  refine ⟨_, rfl, ?_⟩
  split
  · exact h.sets hpage haligned (sets_flushTlbFor hsets scratchMapBase)
  · exact h.sets hpage haligned hsets

end Mapping

section Chunks

variable {m : Tables} {page : ℕ}

theorem copyBytes_one (dest src : ℕ → BitVec 8) (destPos srcPos : ℕ) :
    copyBytes dest destPos src srcPos 1 =
      Function.update dest destPos (src srcPos) := by
  funext p
  unfold copyBytes
  by_cases hp : p = destPos
  · subst hp
    simp
  · rw [if_neg (by omega), Function.update_of_ne hp]

/-- A piece of the shown page is copied like physical memory. -/
theorem vmemcpyFrom_eq (hshows : Shows m page) {phys : ℕ → BitVec 8}
    {offset n : ℕ} (hn : offset + n ≤ archPageSize) (dest : ℕ)
    (memory : ℕ → BitVec 8) :
    vmemcpyFrom m phys dest (scratchMapBase + offset) n memory =
      .ok (copyBytes memory dest phys (page + offset) n) := by
  induction n generalizing dest offset memory with
  | zero => rw [vmemcpyFrom, copyBytes_zero]
  | succ n ih =>
      have happend := copyBytes_append memory phys dest (page + offset) 1 n
      rw [copyBytes_one, Nat.add_comm 1 n] at happend
      have hrest : offset + 1 + n ≤ archPageSize := by omega
      rw [vmemcpyFrom, hshows offset (by omega), ← happend]
      exact ih hrest (dest + 1) _

theorem vmemcpyTo_eq (hshows : Shows m page) {bytes : ℕ → BitVec 8}
    {offset n : ℕ} (hn : offset + n ≤ archPageSize) (i : ℕ)
    (phys : ℕ → BitVec 8) :
    vmemcpyTo m bytes (scratchMapBase + offset) i n phys =
      .ok (copyBytes phys (page + offset) bytes i n) := by
  induction n generalizing i offset phys with
  | zero => rw [vmemcpyTo, copyBytes_zero]
  | succ n ih =>
      have happend := copyBytes_append phys bytes (page + offset) i 1 n
      rw [copyBytes_one, Nat.add_comm 1 n] at happend
      have hrest : offset + 1 + n ≤ archPageSize := by omega
      rw [vmemcpyTo, hshows offset (by omega), ← happend]
      exact ih hrest (i + 1) _

end Chunks

section Refinement

variable {σ : Type} {len : ℕ}
  {chunk : Tables → ℕ → ℕ → ℕ → σ → Except Fault σ}
  {plain : ℕ → ℕ → ℕ → σ → σ}

/-- A piece done through the window is the piece of the page it shows. -/
def Mirrors (chunk : Tables → ℕ → ℕ → ℕ → σ → Except Fault σ)
    (plain : ℕ → ℕ → ℕ → σ → σ) : Prop :=
  ∀ m page offset i n s, Shows m page → offset + n ≤ archPageSize →
    chunk m (scratchMapBase + offset) i n s = .ok (plain (page + offset) i n s)

theorem Mirrors.pageLoop (h : Mirrors chunk plain) {cacheInhibit : Bool}
    {fuel page offset i : ℕ} {m : Tables} {s s' : σ} (hm : Prepared m)
    (hpage : page < 4294967296) (haligned : page % archPageSize = 0)
    (hoffset : offset ≤ archPageSize)
    (hrun : Pstring.pageLoop plain len fuel page offset i s = .ok s') :
    ∃ m', pageLoop chunk cacheInhibit len fuel page offset i m s =
      .ok (m', s') ∧ Prepared m' := by
  induction fuel generalizing page offset i m s with
  | zero => cases hrun
  | succ fuel ih =>
      rw [Pstring.pageLoop] at hrun
      rw [Window.pageLoop]
      by_cases hlt : i < len
      · rw [if_pos hlt] at hrun ⊢
        dsimp only at hrun ⊢
        obtain ⟨m', hmap, hshows, hm'⟩ :=
          hm.scratchMap hpage haligned cacheInhibit
        have hpiece : offset + min (len - i) (archPageSize - offset) ≤
            archPageSize := by omega
        rw [hmap, ok_bind, h m' page offset i _ s hshows hpiece, ok_bind]
        refine ih hm' (wrap_lt _) ?_ (Nat.zero_le _) hrun
        unfold archPageSize at haligned ⊢
        unfold wrap
        omega
      · rw [if_neg hlt] at hrun ⊢
        cases hrun
        exact ⟨m, rfl, hm⟩

theorem Mirrors.overPages (h : Mirrors chunk plain) {physaddr : ℕ}
    {m : Tables} {s s' : σ} (hm : Prepared m)
    (hfits : physaddr + len ≤ 4294967296) (cacheInhibit : Bool)
    (hrun : Pstring.overPages plain physaddr len s = .ok s') :
    ∃ m', overPages chunk cacheInhibit physaddr len m s = .ok (m', s') ∧
      Prepared m' := by
  rcases Nat.eq_zero_or_pos len with rfl | hpos
  · cases hrun
    exact ⟨m, rfl, hm⟩
  · have hpage : alignDown physaddr archPageSize ≤ physaddr := by
      unfold alignDown
      omega
    have haligned : alignDown physaddr archPageSize % archPageSize = 0 := by
      unfold alignDown archPageSize
      omega
    refine h.pageLoop hm (by omega) haligned ?_ hrun
    unfold alignDown archPageSize
    omega

end Refinement

section Copies

variable {m : Tables} {phys memory : ℕ → BitVec 8} {address len : ℕ}

/-- Exactly the bytes of one range are stored. -/
structure Stores (before after : ℕ → BitVec 8) (start len : ℕ)
    (bytes : ℕ → BitVec 8) : Prop where
  within : ∀ i < len, after (start + i) = bytes i
  outside : ∀ p, p < start ∨ start + len ≤ p → after p = before p

theorem copyBytes_stores (dest src : ℕ → BitVec 8) (destPos srcPos len : ℕ) :
    Stores dest (copyBytes dest destPos src srcPos len) destPos len
      (fun i => src (srcPos + i)) where
  within i hi := by
    unfold copyBytes
    rw [if_pos (by omega), Nat.add_sub_cancel_left]
  outside p hp := by
    unfold copyBytes
    rw [if_neg (by omega)]

theorem pmemcpyIn_stores (hm : Prepared m)
    (hfits : address + len ≤ 4294967296) (cacheInhibit : Bool)
    (phys memory : ℕ → BitVec 8) (dest : ℕ) :
    ∃ m' memory', pmemcpyIn m phys memory dest address len cacheInhibit =
      .ok (m', memory') ∧ Prepared m' ∧
      Stores memory memory' dest len fun i => phys (address + i) := by
  have hmirrors : Mirrors
      (fun m virt i n memory => vmemcpyFrom m phys (dest + i) virt n memory)
      (fun piece i n memory =>
        copyBytes memory (dest + i) phys piece n) :=
    fun m page offset i n memory hshows hn =>
      vmemcpyFrom_eq hshows hn (dest + i) memory
  obtain ⟨m', hrun, hm'⟩ := hmirrors.overPages hm hfits cacheInhibit
    (pmemcpyIn_eq hfits)
  exact ⟨m', _, hrun, hm', copyBytes_stores ..⟩

theorem pmemcpyOut_stores (hm : Prepared m)
    (hfits : address + len ≤ 4294967296) (cacheInhibit : Bool)
    (phys memory : ℕ → BitVec 8) (src : ℕ) :
    ∃ m' phys', pmemcpyOut m phys memory address src len cacheInhibit =
      .ok (m', phys') ∧ Prepared m' ∧
      Stores phys phys' address len fun i => memory (src + i) := by
  have hmirrors : Mirrors
      (fun m virt i n phys => vmemcpyTo m memory virt (src + i) n phys)
      (fun piece i n phys => copyBytes phys piece memory (src + i) n) :=
    fun m page offset i n phys hshows hn =>
      vmemcpyTo_eq hshows hn (src + i) phys
  obtain ⟨m', hrun, hm'⟩ := hmirrors.overPages hm hfits cacheInhibit
    (pmemcpyOut_eq hfits)
  exact ⟨m', _, hrun, hm', copyBytes_stores ..⟩

/-- The value is converted to a byte. -/
theorem pmemset_stores (hm : Prepared m)
    (hfits : address + len ≤ 4294967296) (cacheInhibit : Bool)
    (phys : ℕ → BitVec 8) (byte : ℤ) :
    ∃ m' phys', pmemset m phys address byte len cacheInhibit =
      .ok (m', phys') ∧ Prepared m' ∧
      Stores phys phys' address len fun _ => BitVec.ofInt 8 byte := by
  have hmirrors : Mirrors
      (fun m virt i n phys =>
        vmemcpyTo m (fun _ => BitVec.ofInt 8 byte) virt i n phys)
      (fun piece _ n phys =>
        copyBytes phys piece (fun _ => BitVec.ofInt 8 byte) 0 n) := by
    intro m page offset i n phys hshows hn
    exact vmemcpyTo_eq hshows hn i phys
  obtain ⟨m', hrun, hm'⟩ := hmirrors.overPages hm hfits cacheInhibit
    (pmemset_eq (BitVec.ofInt 8 byte) hfits)
  exact ⟨m', _, hrun, hm', copyBytes_stores ..⟩

/-- The copies through the window are copies of bytes, wherever the range lies
in the physical memory. -/
theorem window_copies (hm : Prepared m)
    (hfits : address + len ≤ 4294967296) (cacheInhibit : Bool)
    (phys memory : ℕ → BitVec 8) :
    (∀ dest, ∃ m' memory',
      pmemcpyIn m phys memory dest address len cacheInhibit =
        .ok (m', memory') ∧
      Stores memory memory' dest len fun i => phys (address + i)) ∧
    (∀ src, ∃ m' phys',
      pmemcpyOut m phys memory address src len cacheInhibit =
        .ok (m', phys') ∧
      Stores phys phys' address len fun i => memory (src + i)) ∧
    (∀ byte, ∃ m' phys',
      pmemset m phys address byte len cacheInhibit = .ok (m', phys') ∧
      Stores phys phys' address len fun _ => BitVec.ofInt 8 byte) ∧
    ∀ src dest, ∃ m' phys' m'' memory',
      pmemcpyOut m phys memory address src len cacheInhibit =
        .ok (m', phys') ∧
      pmemcpyIn m' phys' memory dest address len cacheInhibit =
        .ok (m'', memory') ∧
      Stores memory memory' dest len fun i => memory (src + i) := by
  refine ⟨fun dest => ?_, fun src => ?_, fun byte => ?_, fun src dest => ?_⟩
  · obtain ⟨m', memory', hrun, -, hstores⟩ :=
      pmemcpyIn_stores hm hfits cacheInhibit phys memory dest
    exact ⟨m', memory', hrun, hstores⟩
  · obtain ⟨m', phys', hrun, -, hstores⟩ :=
      pmemcpyOut_stores hm hfits cacheInhibit phys memory src
    exact ⟨m', phys', hrun, hstores⟩
  · obtain ⟨m', phys', hrun, -, hstores⟩ :=
      pmemset_stores hm hfits cacheInhibit phys byte
    exact ⟨m', phys', hrun, hstores⟩
  · obtain ⟨m', phys', hout, hm', hphys⟩ :=
      pmemcpyOut_stores hm hfits cacheInhibit phys memory src
    obtain ⟨m'', memory', hin, -, hmemory⟩ :=
      pmemcpyIn_stores hm' hfits cacheInhibit phys' memory dest
    refine ⟨m', phys', m'', memory', hout, hin, ?_, hmemory.outside⟩
    intro i hi
    exact (hmemory.within i hi).trans (hphys.within i hi)

/-- The end of a page and the two last pages of the address space. -/
theorem window_copies_three_pages :
    let m : Tables := ⟨fun _ => 3, fun _ _ => 0, []⟩
    let phys := fun p => BitVec.ofNat 8 (p / 3)
    let memory := fun p => BitVec.ofNat 8 (p * 7)
    (∀ dest, ∃ m' memory',
      pmemcpyIn m phys memory dest 4294959000 8296 false =
        .ok (m', memory') ∧
      Stores memory memory' dest 8296 fun i => phys (4294959000 + i)) ∧
    (∀ src, ∃ m' phys',
      pmemcpyOut m phys memory 4294959000 src 8296 false =
        .ok (m', phys') ∧
      Stores phys phys' 4294959000 8296 fun i => memory (src + i)) ∧
    (∀ byte, ∃ m' phys',
      pmemset m phys 4294959000 byte 8296 false = .ok (m', phys') ∧
      Stores phys phys' 4294959000 8296 fun _ => BitVec.ofInt 8 byte) ∧
    ∀ src dest, ∃ m' phys' m'' memory',
      pmemcpyOut m phys memory 4294959000 src 8296 false =
        .ok (m', phys') ∧
      pmemcpyIn m' phys' memory dest 4294959000 8296 false =
        .ok (m'', memory') ∧
      Stores memory memory' dest 8296 fun i => memory (src + i) :=
  window_copies ⟨rfl, rfl⟩ (by decide) false _ _

end Copies

end Window
end Pstring
end Yjkos
