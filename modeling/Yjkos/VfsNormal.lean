import Yjkos.VfsResolve

/-!
# Normal forms and old memory

`remove_rel_path` with a buffer of any old content.  Nothing behind the buffer
belongs to the memory here, so a search which leaves the buffer is a fault.
The names which have been entered stand at the start; then comes what entered
names have left behind, and the old content from the highest byte written so
far on.  A name is dropped correctly when a terminator comes before any slash
in the old content; the content which the heap leaves has no terminator.
-/

namespace Yjkos
namespace Vfs

open SlashPath

/-- `remove_rel_path` from the allocation on. -/
def removeRelPathIn (memory path : Text) : Except Fault (Except Errno Text) :=
  let size := wrap (path.length + 2)
  do
    match ← removeRelPathLoop size (path.length + 1) path 0 memory with
    | .error e => .ok (.error e)
    | .ok (dest, memory) =>
        let memory ← store size memory dest [0]
        .ok (.ok memory)

theorem removeRelPath_allocated (room : HeapRoom) (path : Text) :
    removeRelPath room path =
      if wrap (path.length + 2) = 0 then .ok (.error .enomem)
      else if !room.allocated then .ok (.error .enomem)
      else removeRelPathIn (freshMemory (wrap (path.length + 2)) room.behind)
        path := rfl

/-- The memory of a buffer for a path, with any content. -/
structure Fresh (content path : Text) : Prop where
  length : content.length = path.length + 2
  mapped : content.length < 4294967296

/-- The memory starts with a string. -/
structure IsString (memory text : Text) : Prop where
  noNul : 0 ∉ text
  terminated : text ++ [0] <+: memory

/-- The result is the normal form, whose own result it is as well. -/
def Normalises (content path : Text) : Prop :=
  let result := spell slash (normal slash dot dotdot path)
  (∃ memory, removeRelPathIn content path = .ok (.ok memory) ∧
    IsString memory result) ∧
  ∀ content', Fresh content' result →
    ∃ memory, removeRelPathIn content' result = .ok (.ok memory) ∧
      IsString memory result

/-- At each `".."`, the old content behind the highest byte written so far has
a terminator in front of any slash. -/
def Settled (content : Text) : ℕ → List Text → List Text → Prop
  | _, _, [] => True
  | high, stack, name :: list =>
      if name = dot then Settled content high stack list
      else if name = dotdot then
        Stops (content.drop high) ∧
          Settled content (max high ((spell slash stack.dropLast).length + 1))
            stack.dropLast list
      else
        Settled content (max high (spell slash (stack ++ [name])).length)
          (stack ++ [name]) list

/-! ## The buffer -/

/-- The memory is a front, some bytes left behind, and old content. -/
structure Layout (content front : Text) (high : ℕ) (inner memory : Text) :
    Prop where
  memory : memory = front ++ (inner ++ content.drop high)
  reached : front.length + inner.length = high
  bound : high ≤ content.length

section Layouts

variable {content front : Text} {high : ℕ} {inner memory : Text}

/-- A write behind the front. -/
theorem Layout.write (h : Layout content front high inner memory)
    (bytes : Text) (hroom : (front ++ bytes).length ≤ content.length) :
    ∃ memory', store content.length memory front.length bytes = .ok memory' ∧
      Layout content (front ++ bytes) (max high (front ++ bytes).length)
        (inner.drop bytes.length) memory' := by
  have hhigh := h.reached
  have hbound := h.bound
  rw [List.length_append] at hroom ⊢
  have hsize : front.length + (inner ++ content.drop high).length =
      content.length := by
    rw [List.length_append, List.length_drop]
    omega
  have hstore := store_at [] bytes hsize (by
    rw [List.length_append, List.length_drop]
    omega)
  have hmax : high + (bytes.length - inner.length) =
      max high (front.length + bytes.length) := by
    omega
  rw [List.append_nil, List.append_nil, List.drop_append, List.drop_drop,
    hmax] at hstore
  rw [h.memory]
  refine ⟨_, hstore, (List.append_assoc _ _ _).symm, ?_, ?_⟩
  · rw [List.length_append, List.length_drop]
    omega
  · omega

/-- The end of the front is left behind. -/
theorem Layout.leave {dropped : Text}
    (h : Layout content (front ++ dropped) high inner memory) :
    Layout content front high (dropped ++ inner) memory where
  memory := by
    rw [h.memory]
    simp only [List.append_assoc]
  reached := by
    have hhigh := h.reached
    rw [List.length_append] at hhigh ⊢
    omega
  bound := h.bound

end Layouts

/-- The memory holds some names. -/
structure Buffered (content : Text) (stack : List Text) (high : ℕ)
    (inner memory : Text) : Prop where
  layout : Layout content (spell slash stack) high inner memory
  inner : slash ∉ inner
  stack : ∀ name ∈ stack, IsName name

theorem buffered_fresh (content : Text) :
    Buffered content [] 0 [] content where
  layout := ⟨rfl, rfl, Nat.zero_le _⟩
  inner := List.not_mem_nil
  stack := fun _ hname => absurd hname List.not_mem_nil

section Steps

variable {content : Text} {stack : List Text} {high : ℕ} {inner memory : Text}

theorem Buffered.push (h : Buffered content stack high inner memory)
    {name : Text} (hname : IsName name)
    (hroom : (spell slash stack).length + 1 + name.length ≤ content.length) :
    ∃ memory' inner',
      enterName content.length name (spell slash stack).length memory =
        .ok ((spell slash (stack ++ [name])).length, memory') ∧
      Buffered content (stack ++ [name])
        (max high (spell slash (stack ++ [name])).length) inner' memory' := by
  have hspell : spell slash (stack ++ [name]) =
      spell slash stack ++ [slash] ++ name := by
    rw [spell_concat, List.append_assoc]
    rfl
  have hhere : (spell slash stack ++ [slash]).length =
      (spell slash stack).length + 1 := by
    rw [List.length_append, List.length_singleton]
  have hend : (spell slash stack ++ [slash] ++ name).length =
      (spell slash stack ++ [slash]).length + name.length :=
    List.length_append
  obtain ⟨memory₁, hfirst, hlayout₁⟩ :=
    h.layout.write [slash] (by rw [hhere]; omega)
  obtain ⟨memory₂, hsecond, hlayout₂⟩ :=
    hlayout₁.write name (by rw [hend, hhere]; exact hroom)
  have hmax : max (max high (spell slash stack ++ [slash]).length)
      (spell slash stack ++ [slash] ++ name).length =
        max high (spell slash stack ++ [slash] ++ name).length := by
    omega
  rw [hmax, ← hspell] at hlayout₂
  refine ⟨memory₂, _, ?_, hlayout₂, ?_, ?_⟩
  · unfold enterName
    rw [if_neg hname.notDot, if_neg hname.notUp, hfirst]
    show (store _ memory₁ _ name >>= _) = _
    rw [← hhere, hsecond, hspell, hend]
    rfl
  · exact fun hmem =>
      h.inner (List.mem_of_mem_drop (List.mem_of_mem_drop hmem))
  · intro other hother
    rcases List.mem_append.1 hother with hother | hother
    · exact h.stack other hother
    · rw [List.mem_singleton.1 hother]
      exact hname

theorem Buffered.pop (h : Buffered content stack high inner memory)
    (hstops : Stops (content.drop high))
    (hroom : (spell slash stack).length + 1 ≤ content.length) :
    ∃ memory' inner',
      enterName content.length dotdot (spell slash stack).length memory =
        .ok ((spell slash stack.dropLast).length, memory') ∧
      Buffered content stack.dropLast
        (max high ((spell slash stack.dropLast).length + 1)) inner'
        memory' := by
  have hnames : ∀ name ∈ stack, slash ∉ name ∧ 0 ∉ name :=
    fun name hname => ⟨(h.stack name hname).noSlash, (h.stack name hname).noNul⟩
  obtain ⟨found, hfound, hpos⟩ :=
    kstrrchr_stack hnames (hstops.append h.inner)
  rw [← h.layout.memory] at hfound
  obtain ⟨dropped, hspell, hdropped⟩ := spell_dropLast hnames
  have hlayout := h.layout
  rw [hspell] at hlayout
  have hlength : (spell slash stack.dropLast ++ [(0 : BitVec 8)]).length =
      (spell slash stack.dropLast).length + 1 := by
    rw [List.length_append, List.length_singleton]
  obtain ⟨memory', hstore, hlayout'⟩ := hlayout.leave.write [0] (by
    have htotal := congrArg List.length hspell
    rw [List.length_append] at htotal
    omega)
  rw [hlength] at hlayout'
  refine ⟨memory', _, ?_, hlayout'.leave, ?_, ?_⟩
  · unfold enterName
    rw [if_neg (by decide), if_pos rfl, hfound]
    show (store _ memory (found.getD 0) [0] >>= _) = _
    rw [hpos, hstore]
    rfl
  · intro hmem
    rcases List.mem_append.1 hmem with hmem | hmem
    · exact absurd (List.mem_singleton.1 hmem) (by decide)
    · rw [List.length_singleton, List.drop_append] at hmem
      rcases List.mem_append.1 hmem with hmem | hmem
      · exact hdropped hmem
      · exact h.inner (List.mem_of_mem_drop hmem)
  · exact fun name hname => h.stack name (List.mem_of_mem_dropLast hname)

/-- A name is entered, while the old content lets it be. -/
theorem Buffered.enter (h : Buffered content stack high inner memory)
    {name : Text} {list : List Text} (hne : name ≠ []) (hslash : slash ∉ name)
    (hnul : 0 ∉ name)
    (hroom : (spell slash stack).length + name.length + 2 ≤ content.length)
    (hsettled : Settled content high stack (name :: list)) :
    ∃ memory' high' inner',
      enterName content.length name (spell slash stack).length memory =
        .ok ((spell slash (SlashPath.enter dot dotdot stack name)).length,
          memory') ∧
      Buffered content (SlashPath.enter dot dotdot stack name) high' inner'
        memory' ∧
      Settled content high' (SlashPath.enter dot dotdot stack name) list ∧
      (spell slash (SlashPath.enter dot dotdot stack name)).length ≤
        (spell slash stack).length + 1 + name.length := by
  unfold Settled at hsettled
  unfold SlashPath.enter
  by_cases hdot : name = dot
  · rw [if_pos hdot] at hsettled ⊢
    refine ⟨memory, high, inner, ?_, h, hsettled, by omega⟩
    unfold enterName
    exact if_pos hdot
  · rw [if_neg hdot] at hsettled ⊢
    by_cases hup : name = dotdot
    · rw [if_pos hup] at hsettled ⊢
      obtain ⟨memory', inner', henter, hbuffered⟩ :=
        h.pop hsettled.1 (by omega)
      obtain ⟨dropped, hspell, -⟩ := spell_dropLast (fun name hname =>
        ⟨(h.stack name hname).noSlash, (h.stack name hname).noNul⟩)
      have htotal := congrArg List.length hspell
      rw [List.length_append] at htotal
      exact ⟨memory', _, inner', hup ▸ henter, hbuffered, hsettled.2,
        by omega⟩
    · rw [if_neg hup] at hsettled ⊢
      obtain ⟨memory', inner', henter, hbuffered⟩ :=
        h.push ⟨hne, hslash, hnul, hdot, hup⟩ (by omega)
      refine ⟨memory', _, inner', henter, hbuffered, hsettled, ?_⟩
      rw [spell_concat, List.length_append, List.length_cons]
      omega

end Steps

/-! ## The loop -/

theorem removeRelPathLoop_settled {content : Text} {fuel high : ℕ}
    {stack : List Text} {inner memory remaining : Text}
    (h : Buffered content stack high inner memory)
    (hroom : Roomy content.length stack remaining) (hnul : 0 ∉ remaining)
    (hfit : NamesFit remaining)
    (hsettled : Settled content high stack (names slash remaining))
    (hfuel : remaining.length < fuel) :
    ∃ memory' high' inner',
      removeRelPathLoop content.length fuel remaining
          (spell slash stack).length memory =
        .ok (.ok ((spell slash ((names slash remaining).foldl
          (enter dot dotdot) stack)).length, memory')) ∧
      Buffered content ((names slash remaining).foldl (enter dot dotdot)
        stack) high' inner' memory' ∧
      (spell slash ((names slash remaining).foldl (enter dot dotdot)
        stack)).length + 1 ≤ content.length := by
  induction fuel generalizing stack high inner memory remaining with
  | zero => omega
  | succ fuel ih =>
      have hspec := pathreaderNext_spec remaining
      cases hnext : pathreaderNext remaining with
      | error e =>
          rw [hnext] at hspec
          by_cases he : e = .enoent
          · subst he
            obtain ⟨hnames, -⟩ : names slash remaining = [] ∧ _ := hspec
            rw [hnames, removeRelPathLoop, hnext]
            refine ⟨memory, high, inner, rfl, h, ?_⟩
            show (spell slash stack).length + 1 ≤ content.length
            rcases hroom with hroom | ⟨-, hroom⟩
            · omega
            · exact hroom
          · exact absurd hfit (hspec.not_namesFit he)
      | ok next =>
          obtain ⟨name, rest⟩ := next
          rw [hnext] at hspec
          have hstep : NextName remaining name rest := hspec
          have hnul' : 0 ∉ name := fun hmem => hnul (hstep.sub 0 hmem)
          obtain ⟨hfits, hrest⟩ := hroom.next hstep
          rw [hstep.names] at hsettled
          obtain ⟨memory₁, high₁, inner₁, henter, hbuffered, hsettled', hle⟩ :=
            h.enter hstep.ne_nil hstep.noSlash hnul' hfits hsettled
          rw [removeRelPathLoop_next hnext hstep.ne_nil hnul', hstep.names,
            henter]
          apply ih hbuffered (hrest _ hle)
          · exact fun hmem => hnul (hstep.subRest 0 hmem)
          · exact hstep.fit.1 hfit
          · exact hsettled'
          · have hlt := hstep.length_lt
            omega

/-! ## The function -/

theorem settled_of_noUp (content : Text) {high : ℕ} {stack list : List Text}
    (h : dotdot ∉ list) : Settled content high stack list := by
  induction list generalizing high stack with
  | nil => trivial
  | cons name list ih =>
      rw [List.mem_cons, not_or] at h
      unfold Settled
      rw [if_neg (Ne.symm h.1)]
      split
      · exact ih h.2
      · exact ih h.2

theorem namesFit_of_names {path : Text}
    (h : ∀ name ∈ names slash path, name.length ≤ nameMax) :
    NamesFit path := by
  intro name hname
  by_cases hnil : name = []
  · rw [hnil]
    exact Nat.zero_le _
  · apply h
    unfold names
    rw [List.mem_filter]
    exact ⟨List.mem_of_mem_dropLast hname, by simpa using hnil⟩

theorem removeRelPathIn_settled {content path : Text} (hnul : 0 ∉ path)
    (hfresh : Fresh content path) (hfit : NamesFit path)
    (hsettled : Settled content 0 [] (names slash path)) :
    (∃ memory, removeRelPathIn content path = .ok (.ok memory) ∧
      IsString memory (spell slash (normal slash dot dotdot path))) ∧
    ∀ name ∈ normal slash dot dotdot path, IsName name := by
  have hroom : Roomy content.length [] path := by
    left
    rw [hfresh.length]
    simp
  obtain ⟨memory, high, inner, hloop, hbuffered, hend⟩ :=
    removeRelPathLoop_settled (buffered_fresh content) hroom hnul hfit
      hsettled (Nat.lt_succ_self _)
  obtain ⟨memory', hstore, hlayout⟩ := hbuffered.layout.write [0] (by
    rw [List.length_append, List.length_singleton]
    exact hend)
  have hsize : wrap (path.length + 2) = content.length := by
    rw [← hfresh.length]
    exact wrap_of_lt hfresh.mapped
  refine ⟨⟨memory', ?_, ?_, ?_⟩, hbuffered.stack⟩
  · unfold removeRelPathIn
    rw [hsize]
    show (removeRelPathLoop _ _ path (spell slash []).length content >>= _) = _
    rw [hloop]
    show (store _ memory _ [0] >>= _) = _
    rw [hstore]
    rfl
  · exact nul_notMem_spell (fun name hname =>
      (hbuffered.stack name hname).noNul)
  · rw [hlayout.memory]
    exact List.prefix_append _ _

theorem normalises_of_settled {content path : Text} (hnul : 0 ∉ path)
    (hfresh : Fresh content path)
    (hfit : ∀ name ∈ names slash path, name.length ≤ nameMax)
    (hsettled : Settled content 0 [] (names slash path)) :
    Normalises content path := by
  obtain ⟨hresult, hnames⟩ := removeRelPathIn_settled hnul hfresh
    (namesFit_of_names hfit) hsettled
  refine ⟨hresult, ?_⟩
  intro content' hfresh'
  have hsame : names slash (spell slash (normal slash dot dotdot path)) =
      normal slash dot dotdot path :=
    names_spell slash (fun name hname =>
      ⟨(hnames name hname).noSlash, (hnames name hname).ne_nil⟩)
  have hnormal : normal slash dot dotdot
      (spell slash (normal slash dot dotdot path)) =
        normal slash dot dotdot path := by
    unfold normal at hsame ⊢
    rw [hsame, foldl_enter_ordinary, List.nil_append]
    exact fun name hname =>
      ⟨(hnames name hname).notDot, (hnames name hname).notUp⟩
  have hfit' : ∀ name ∈ normal slash dot dotdot path,
      name.length ≤ nameMax := by
    intro name hname
    rcases mem_foldl_enter hname with hmem | hmem
    · cases hmem
    · exact hfit name hmem
  have hagain := removeRelPathIn_settled
    (nul_notMem_spell (fun name hname => (hnames name hname).noNul))
    hfresh' (namesFit_of_names (by rw [hsame]; exact hfit'))
    (settled_of_noUp content' (by
      rw [hsame]
      exact fun hmem => (hnames dotdot hmem).notUp rfl))
  rw [hnormal] at hagain
  exact hagain.1

/-! ## A buffer without a terminator -/

theorem kstrrchrLoop_runsOut {memory : Text} (hnul : 0 ∉ memory) (i : ℕ)
    (result : Option ℕ) :
    kstrrchrLoop slash memory i result = .error .outOfBounds := by
  induction memory generalizing i result with
  | nil => rfl
  | cons c memory ih =>
      rw [List.mem_cons, not_or] at hnul
      rw [kstrrchrLoop_cons (Ne.symm hnul.1)]
      exact ih hnul.2 _ _

theorem nul_notMem_store {size pos : ℕ} {memory memory' bytes : Text}
    (hmemory : 0 ∉ memory) (hbytes : 0 ∉ bytes)
    (h : store size memory pos bytes = .ok memory') : 0 ∉ memory' := by
  unfold store at h
  split at h
  next =>
    cases h
    simp only [List.mem_append, not_or]
    exact ⟨fun hmem => hmemory (List.mem_of_mem_take hmem), hbytes,
      fun hmem => hmemory (List.mem_of_mem_drop hmem)⟩
  next => cases h

/-- Without a terminator in the buffer, a path which goes up is not
normalised. -/
theorem removeRelPathLoop_runsOut {size fuel dest : ℕ}
    {remaining memory : Text} (hnul : 0 ∉ remaining) (hmemory : 0 ∉ memory)
    (hup : dotdot ∈ names slash remaining) (r : ℕ × Text) :
    removeRelPathLoop size fuel remaining dest memory ≠ .ok (.ok r) := by
  intro hloop
  induction fuel generalizing dest memory remaining with
  | zero => cases hloop
  | succ fuel ih =>
      have hspec := pathreaderNext_spec remaining
      cases hnext : pathreaderNext remaining with
      | error e =>
          rw [hnext] at hspec
          rw [removeRelPathLoop, hnext] at hloop
          cases e with
          | enoent =>
              rw [hspec.1] at hup
              cases hup
          | _ => cases hloop
      | ok next =>
          obtain ⟨name, rest⟩ := next
          rw [hnext] at hspec
          have hstep : NextName remaining name rest := hspec
          have hnul' : 0 ∉ name := fun hmem => hnul (hstep.sub 0 hmem)
          rw [removeRelPathLoop_next hnext hstep.ne_nil hnul'] at hloop
          obtain ⟨⟨dest₁, memory₁⟩, henter, hrest⟩ := bind_eq_ok hloop
          rw [hstep.names, List.mem_cons] at hup
          by_cases hisup : name = dotdot
          · rw [enterName, if_neg (by rw [hisup]; decide), if_pos hisup,
              kstrrchr, kstrrchrLoop_runsOut hmemory] at henter
            cases henter
          · have hup' := hup.resolve_left (fun heq => hisup heq.symm)
            have hrestNul : 0 ∉ rest := fun hmem => hnul (hstep.subRest 0 hmem)
            by_cases hdot : name = dot
            · rw [enterName, if_pos hdot] at henter
              cases henter
              exact ih hrestNul hmemory hup' hrest
            · rw [enterName, if_neg hdot, if_neg hisup] at henter
              obtain ⟨memory₂, hfirst, henter⟩ := bind_eq_ok henter
              obtain ⟨memory₃, hsecond, henter⟩ := bind_eq_ok henter
              cases henter
              have hmemory₂ := nul_notMem_store hmemory (by decide) hfirst
              exact ih hrestNul (nul_notMem_store hmemory₂ hnul' hsecond)
                hup' hrest

theorem not_normalises_of_noNul {content path : Text} (hnul : 0 ∉ path)
    (hcontent : 0 ∉ content) (hup : dotdot ∈ names slash path) :
    ¬Normalises content path := by
  rintro ⟨⟨memory, hresult, -⟩, -⟩
  obtain ⟨r, hloop, hrest⟩ := bind_eq_ok hresult
  cases r with
  | error e => cases hrest
  | ok r => exact removeRelPathLoop_runsOut hnul hcontent hup r hloop

/-- With any old content, exactly the paths which do not go up are normalised;
the others are when a terminator in the old content stops each search. -/
theorem removeRelPath_normalises_iff (path : PathString)
    (hsize : wrap (path.bytes.length + 2) ≠ 0)
    (hfit : ∀ name ∈ names slash path.bytes, name.length ≤ nameMax) :
    ((∀ content, Fresh content path.bytes → Normalises content path.bytes) ↔
      dotdot ∉ names slash path.bytes) ∧
    ∀ content, Fresh content path.bytes →
      Settled content 0 [] (names slash path.bytes) →
        Normalises content path.bytes := by
  have hmapped : path.bytes.length + 2 < 4294967296 := by
    have hpath := path.mapped
    unfold wrap at hsize
    omega
  have hsettled : ∀ content, Fresh content path.bytes →
      Settled content 0 [] (names slash path.bytes) →
        Normalises content path.bytes :=
    fun content hfresh => normalises_of_settled path.noNul hfresh hfit
  refine ⟨⟨?_, ?_⟩, hsettled⟩
  · intro h hup
    have hfresh : Fresh (List.replicate (path.bytes.length + 2) 0x90)
        path.bytes :=
      ⟨List.length_replicate, by rwa [List.length_replicate]⟩
    refine not_normalises_of_noNul path.noNul ?_ hup (h _ hfresh)
    exact fun hmem => absurd (List.eq_of_mem_replicate hmem) (by decide)
  · intro hup content hfresh
    exact hsettled content hfresh (settled_of_noUp content hup)

/-- The path `"a/.."`. -/
def aUpPath : PathString where
  bytes := 0x61 :: slash :: dotdot
  noNul := by decide
  mapped := by decide

theorem removeRelPath_normalises_aUp :
    Normalises (List.replicate 6 0) aUpPath.bytes := by
  have hnames : names slash aUpPath.bytes = [[0x61], dotdot] := by decide
  have h := removeRelPath_normalises_iff aUpPath (by decide) (by decide)
  apply h.2
  · exact ⟨rfl, by decide⟩
  · rw [hnames, Settled, if_neg (by decide), if_neg (by decide), Settled,
      if_neg (by decide), if_pos rfl]
    exact ⟨by decide, trivial⟩

/-- The content is the one which the heap leaves. -/
theorem up_not_normalised :
    Fresh (List.replicate 4 0x90) dotdot ∧
      ¬Normalises (List.replicate 4 0x90) dotdot :=
  ⟨⟨rfl, by decide⟩,
    not_normalises_of_noNul (by decide) (by decide) (by decide)⟩

end Vfs
end Yjkos
