import Yjkos.Vfs

/-!
# Normal forms of paths

`remove_rel_path` computes the normal form of a path, unless a name in front
of a slash is too long, or the path goes up and the memory behind the buffer
holds a slash in front of its first terminator: the buffer has no terminator
of its own before the first `".."`, so the search for the last slash runs into
that memory.
-/

namespace Yjkos
namespace Vfs

open SlashPath

/-! ## Strings -/

theorem kstrcmp_eq_zero {s1 s2 : Text} (h1 : 0 ∉ s1) (h2 : 0 ∉ s2) :
    kstrcmp s1 s2 = 0 ↔ s1 = s2 := by
  induction s1 generalizing s2 with
  | nil =>
      cases s2 with
      | nil => simp [kstrcmp]
      | cons c s2 =>
          have hc : c ≠ 0 := fun hc => h2 (by simp [hc])
          simp only [kstrcmp, List.headD_cons, neg_eq_zero]
          constructor
          · intro hzero
            exact absurd (BitVec.eq_of_toInt_eq (hzero.trans rfl)) hc
          · intro hnil
            cases hnil
  | cons c s1 ih =>
      have hc : c ≠ 0 := fun hc => h1 (by simp [hc])
      have h1' : 0 ∉ s1 := fun hmem => h1 (List.mem_cons_of_mem c hmem)
      unfold kstrcmp
      by_cases hhead : c = s2.headD 0
      · rw [if_neg (not_not.2 hhead), if_neg hc]
        cases s2 with
        | nil => exact absurd hhead hc
        | cons d s2 =>
            have h2' : 0 ∉ s2 := fun hmem => h2 (List.mem_cons_of_mem d hmem)
            have hcd : c = d := hhead
            rw [List.tail_cons, ih h1' h2', hcd]
            simp
      · rw [if_pos hhead]
        constructor
        · intro hzero
          exact absurd (BitVec.eq_of_toInt_eq (sub_eq_zero.1 hzero)) hhead
        · intro heq
          subst heq
          exact absurd rfl hhead

theorem kstrncmp_eq_zero {s1 : Text} (s2 : Text) (h1 : 0 ∉ s1) :
    kstrncmp s1 s2 s1.length = 0 ↔ s1 <+: s2 := by
  induction s1 generalizing s2 with
  | nil => simp [kstrncmp]
  | cons c s1 ih =>
      have hc : c ≠ 0 := fun hc => h1 (by simp [hc])
      have h1' : 0 ∉ s1 := fun hmem => h1 (List.mem_cons_of_mem c hmem)
      rw [List.length_cons]
      unfold kstrncmp
      rw [List.headD_cons]
      by_cases hhead : c = s2.headD 0
      · rw [if_neg (not_not.2 hhead), if_neg hc]
        cases s2 with
        | nil => exact absurd hhead hc
        | cons d s2 =>
            have hcd : c = d := hhead
            rw [List.tail_cons, List.tail_cons, ih s2 h1', hcd]
            simp
      · rw [if_pos hhead]
        constructor
        · intro hzero
          exact absurd (BitVec.eq_of_toInt_eq (sub_eq_zero.1 hzero)) hhead
        · rintro ⟨rest, rfl⟩
          exact absurd rfl hhead

/-- A terminator comes before every slash. -/
def Stops (memory : Text) : Prop :=
  memory.find? (fun c => c = 0 ∨ c = slash) = some 0

instance (memory : Text) : Decidable (Stops memory) :=
  inferInstanceAs (Decidable (_ = _))

theorem stops_cons_nul (memory : Text) : Stops (0 :: memory) := rfl

theorem not_stops_cons_slash (memory : Text) : ¬Stops (slash :: memory) := by
  intro h
  cases h

theorem stops_cons {c : BitVec 8} (hnul : c ≠ 0) (hslash : c ≠ slash)
    (memory : Text) : Stops (c :: memory) ↔ Stops memory := by
  unfold Stops
  rw [List.find?_cons_of_neg]
  intro h
  exact (of_decide_eq_true h).elim hnul hslash

theorem stops_append {first rest : Text} (hnul : 0 ∉ first)
    (hslash : slash ∉ first) : Stops (first ++ rest) ↔ Stops rest := by
  induction first with
  | nil => exact Iff.rfl
  | cons c first ih =>
      rw [List.mem_cons, not_or] at hnul hslash
      rw [List.cons_append, stops_cons (Ne.symm hnul.1) (Ne.symm hslash.1),
        ih hnul.2 hslash.2]

theorem Stops.append {first rest : Text} (hslash : slash ∉ first)
    (h : Stops rest) : Stops (first ++ rest) := by
  induction first with
  | nil => exact h
  | cons c first ih =>
      rw [List.mem_cons, not_or] at hslash
      by_cases hc : c = 0
      · rw [hc]
        exact stops_cons_nul _
      · rw [List.cons_append, stops_cons hc (Ne.symm hslash.1)]
        exact ih hslash.2

theorem kstrrchrLoop_cons {c : BitVec 8} (hc : c ≠ 0) (rest : Text) (i : ℕ)
    (result : Option ℕ) :
    kstrrchrLoop slash (c :: rest) i result =
      kstrrchrLoop slash rest (i + 1)
        (if c = slash then some i else result) :=
  if_neg hc

theorem kstrrchrLoop_append {first : Text} (hnul : 0 ∉ first) (rest : Text)
    (i : ℕ) (result : Option ℕ) :
    ∃ result', (slash ∉ first → result' = result) ∧
      kstrrchrLoop slash (first ++ rest) i result =
        kstrrchrLoop slash rest (i + first.length) result' := by
  induction first generalizing i result with
  | nil => exact ⟨result, fun _ => rfl, rfl⟩
  | cons c first ih =>
      have hc : c ≠ 0 := fun hc => hnul (by simp [hc])
      obtain ⟨result', hkept, heq⟩ :=
        ih (fun hmem => hnul (List.mem_cons_of_mem c hmem)) (i + 1)
          (if c = slash then some i else result)
      refine ⟨result', ?_, ?_⟩
      · intro hslash
        have hne : c ≠ slash := fun hc => hslash (by simp [hc])
        rw [hkept (fun hmem => hslash (List.mem_cons_of_mem c hmem)),
          if_neg hne]
      · rw [List.cons_append, kstrrchrLoop_cons hc, heq, List.length_cons,
          Nat.add_assoc i 1, Nat.add_comm 1]

theorem kstrrchrLoop_stops {memory : Text} (h : Stops memory) (i : ℕ)
    (result : Option ℕ) :
    kstrrchrLoop slash memory i result = .ok result := by
  induction memory generalizing i with
  | nil => cases h
  | cons c memory ih =>
      unfold kstrrchrLoop
      dsimp only
      by_cases hc : c = 0
      · have hne : c ≠ slash := by rw [hc]; decide
        rw [if_pos hc, if_neg hne]
      · by_cases hslash : c = slash
        · rw [hslash] at h
          exact absurd h (not_stops_cons_slash memory)
        · rw [if_neg hc, if_neg hslash]
          exact ih ((stops_cons hc hslash memory).1 h) (i + 1)

theorem kstrrchrLoop_result {memory : Text} {i j : ℕ} {found : Option ℕ}
    (hj : i ≤ j) (h : kstrrchrLoop slash memory j (some i) = .ok found) :
    ∃ k, found = some k ∧ i ≤ k := by
  induction memory generalizing i j with
  | nil => cases h
  | cons c memory ih =>
      unfold kstrrchrLoop at h
      dsimp only at h
      split at h
      next =>
        cases h
        split
        next => exact ⟨j, rfl, hj⟩
        next => exact ⟨i, rfl, le_rfl⟩
      next =>
        split at h
        next =>
          obtain ⟨k, hk, hle⟩ := ih (Nat.le_succ j) h
          exact ⟨k, hk, hj.trans hle⟩
        next => exact ih (hj.trans (Nat.le_succ j)) h

theorem kstrrchrLoop_not_stops {memory : Text} (h : ¬Stops memory) {i : ℕ}
    {result found : Option ℕ}
    (hfound : kstrrchrLoop slash memory i result = .ok found) :
    ∃ k, found = some k ∧ i ≤ k := by
  induction memory generalizing i with
  | nil => cases hfound
  | cons c memory ih =>
      unfold kstrrchrLoop at hfound
      dsimp only at hfound
      by_cases hc : c = 0
      · rw [hc] at h
        exact absurd (stops_cons_nul memory) h
      · rw [if_neg hc] at hfound
        by_cases hslash : c = slash
        · rw [if_pos hslash] at hfound
          exact kstrrchrLoop_result (Nat.le_succ i) hfound
        · rw [if_neg hslash] at hfound
          rw [stops_cons hc hslash] at h
          obtain ⟨k, hk, hle⟩ := ih h hfound
          exact ⟨k, hk, (Nat.le_succ i).trans hle⟩

/-! ## Names -/

/-- Every name with a slash behind it fits in the reader's buffer. -/
def NamesFit (path : Text) : Prop :=
  ∀ name ∈ (path.splitOn slash).dropLast, name.length ≤ nameMax

theorem namesFit_nil : NamesFit [] := by
  intro name hname
  simp at hname

theorem namesFit_cons_slash (rest : Text) :
    NamesFit (slash :: rest) ↔ NamesFit rest := by
  unfold NamesFit
  have hsplit : (slash :: rest).splitOn slash = [] :: rest.splitOn slash :=
    splitOn_name slash (List.not_mem_nil (a := slash))
  rw [hsplit, List.dropLast_cons_of_ne_nil (List.splitOn_ne_nil slash rest)]
  simp

theorem namesFit_name {name : Text} (rest : Text) (hname : slash ∉ name) :
    NamesFit (name ++ slash :: rest) ↔
      name.length ≤ nameMax ∧ NamesFit rest := by
  unfold NamesFit
  rw [splitOn_name slash hname,
    List.dropLast_cons_of_ne_nil (List.splitOn_ne_nil slash rest),
    List.forall_mem_cons]

theorem namesFit_last {name : Text} (hname : slash ∉ name) :
    NamesFit name := by
  unfold NamesFit
  rw [List.splitOn_eq_singleton hname]
  intro other hother
  simp at hother

/-- A step of the path reader. -/
structure NextName (path name rest : Text) : Prop where
  ne_nil : name ≠ []
  noSlash : slash ∉ name
  names : names slash path = name :: names slash rest
  sub : ∀ c ∈ name, c ∈ path
  subRest : ∀ c ∈ rest, c ∈ path
  room : name.length + 1 + rest.length ≤ path.length ∨
    (rest = [] ∧ name.length ≤ path.length)
  fit : NamesFit path ↔ NamesFit rest

theorem NextName.cons_slash {path name rest : Text}
    (h : NextName path name rest) : NextName (slash :: path) name rest where
  ne_nil := h.ne_nil
  noSlash := h.noSlash
  names := (names_cons_sep slash path).trans h.names
  sub c hc := List.mem_cons_of_mem slash (h.sub c hc)
  subRest c hc := List.mem_cons_of_mem slash (h.subRest c hc)
  room := by
    rw [List.length_cons]
    rcases h.room with hroom | ⟨hnil, hroom⟩
    · exact Or.inl (by omega)
    · exact Or.inr ⟨hnil, by omega⟩
  fit := (namesFit_cons_slash path).trans h.fit

theorem kstrchr_none {path : Text} (h : kstrchr path slash = none) :
    slash ∉ path := by
  intro hmem
  have := (List.findIdx?_eq_none_iff.1 h) slash hmem
  simp at this

theorem kstrchr_some {path : Text} {len : ℕ}
    (h : kstrchr path slash = some len) :
    slash ∉ path.take len ∧
      path = path.take len ++ slash :: path.drop (len + 1) ∧
      (path.take len).length = len := by
  obtain ⟨hlt, hslash, hbefore⟩ := List.findIdx?_eq_some_iff_getElem.1 h
  refine ⟨?_, ?_, ?_⟩
  · intro hmem
    obtain ⟨j, hj, heq⟩ := List.mem_take_iff_getElem.1 hmem
    apply hbefore j (by omega)
    rw [heq]
    exact decide_eq_true rfl
  · have hat : path[len] = slash := of_decide_eq_true hslash
    rw [← hat, ← List.drop_eq_getElem_cons hlt, List.take_append_drop]
  · exact List.length_take_of_le hlt.le

/-- What the path reader says about a path. -/
def NextOutcome (path : Text) : Except Errno (Text × Text) → Prop
  | .ok (name, rest) => NextName path name rest
  | .error .enoent => names slash path = [] ∧ NamesFit path
  | .error _ => ¬NamesFit path

theorem NextOutcome.cons_slash {path : Text}
    {result : Except Errno (Text × Text)} (h : NextOutcome path result) :
    NextOutcome (slash :: path) result := by
  unfold NextOutcome at h ⊢
  split at h
  next => exact h.cons_slash
  next =>
    exact ⟨(names_cons_sep slash path).trans h.1,
      (namesFit_cons_slash path).2 h.2⟩
  next => exact fun hfit => h ((namesFit_cons_slash path).1 hfit)

theorem NextOutcome.not_namesFit {path : Text} {e : Errno}
    (h : NextOutcome path (.error e)) (he : e ≠ .enoent) : ¬NamesFit path := by
  cases e with
  | enoent => exact absurd rfl he
  | _ => exact h

theorem NextName.length_lt {path name rest : Text}
    (h : NextName path name rest) : rest.length < path.length := by
  have hpos : 0 < name.length := List.length_pos_iff.2 h.ne_nil
  rcases h.room with hroom | ⟨hnil, hroom⟩
  · omega
  · rw [hnil, List.length_nil]
    omega

theorem pathreaderNext_spec (path : Text) :
    NextOutcome path (pathreaderNext path) := by
  induction path with
  | nil => exact ⟨names_nil slash, namesFit_nil⟩
  | cons c path ih =>
      unfold pathreaderNext
      cases hfind : kstrchr (c :: path) slash with
      | none =>
          have hslash := kstrchr_none hfind
          exact
            { ne_nil := List.cons_ne_nil c path
              noSlash := hslash
              names := by
                rw [names_last slash hslash (List.cons_ne_nil c path),
                  names_nil]
              sub := fun _ h => h
              subRest := fun _ h => absurd h List.not_mem_nil
              room := Or.inr ⟨rfl, le_rfl⟩
              fit := iff_of_true (namesFit_last hslash) namesFit_nil }
      | some len =>
          obtain ⟨hslash, hsplit, hlength⟩ := kstrchr_some hfind
          dsimp only
          by_cases hlong : nameMax < len
          · rw [if_pos hlong]
            intro hfit
            rw [hsplit, namesFit_name _ hslash, hlength] at hfit
            exact absurd hlong (not_lt.2 hfit.1)
          · rw [if_neg hlong]
            by_cases hzero : len = 0
            · rw [if_pos hzero]
              have hc : c = slash := by
                rw [hzero] at hsplit
                exact (List.cons.inj hsplit).1
              rw [hc]
              exact ih.cons_slash
            · rw [if_neg hzero]
              have hne : (c :: path).take len ≠ [] := by
                intro hnil
                rw [hnil] at hlength
                exact hzero hlength.symm
              exact
                { ne_nil := hne
                  noSlash := hslash
                  names := by
                    nth_rewrite 1 [hsplit]
                    exact names_name slash _ hslash hne
                  sub := fun _ h => List.mem_of_mem_take h
                  subRest := fun _ h => List.mem_of_mem_drop h
                  room := by
                    left
                    have htotal := congrArg List.length hsplit
                    rw [List.length_append, List.length_cons (a := slash)]
                      at htotal
                    omega
                  fit := by
                    nth_rewrite 1 [hsplit]
                    rw [namesFit_name _ hslash, hlength]
                    exact and_iff_right (not_lt.1 hlong) }

/-- The names in front of the first one which is too long. -/
def fitting (list : List Text) : List Text :=
  list.takeWhile (fun name => name.length ≤ nameMax)

@[simp]
theorem fitting_nil : fitting [] = [] := rfl

theorem fitting_cons_of_le {name : Text} (list : List Text)
    (h : name.length ≤ nameMax) :
    fitting (name :: list) = name :: fitting list :=
  List.takeWhile_cons_of_pos (decide_eq_true h)

theorem fitting_cons_of_lt {name : Text} (list : List Text)
    (h : nameMax < name.length) : fitting (name :: list) = [] :=
  List.takeWhile_cons_of_neg (by simpa using h)

instance (path : Text) : Decidable (NamesFit path) :=
  inferInstanceAs (Decidable (∀ name ∈ (path.splitOn slash).dropLast, _))

/-- The names which the path reader gives. -/
def namesRead (path : Text) : List Text :=
  if NamesFit path then names slash path else fitting (names slash path)

theorem pathreaderNext_short {path name rest : Text}
    (h : pathreaderNext path = .ok (name, rest)) :
    name.length ≤ nameMax ∨ rest = [] := by
  induction path with
  | nil => cases h
  | cons c path ih =>
      unfold pathreaderNext at h
      cases hfind : kstrchr (c :: path) slash with
      | none =>
          rw [hfind] at h
          cases h
          exact Or.inr rfl
      | some len =>
          obtain ⟨-, -, hlength⟩ := kstrchr_some hfind
          rw [hfind] at h
          dsimp only at h
          split at h
          next => cases h
          next hlong =>
            split at h
            next => exact ih h
            next =>
              cases h
              left
              omega

theorem namesRead_next {path name rest : Text}
    (h : pathreaderNext path = .ok (name, rest)) :
    namesRead path = name :: namesRead rest := by
  have hspec := pathreaderNext_spec path
  rw [h] at hspec
  have hstep : NextName path name rest := hspec
  unfold namesRead
  by_cases hfit : NamesFit path
  · rw [if_pos hfit, if_pos (hstep.fit.1 hfit), hstep.names]
  · have hrest : ¬NamesFit rest := fun hrest => hfit (hstep.fit.2 hrest)
    rw [if_neg hfit, if_neg hrest, hstep.names]
    rcases pathreaderNext_short h with hshort | hnil
    · exact fitting_cons_of_le _ hshort
    · rw [hnil] at hrest
      exact absurd namesFit_nil hrest

theorem namesRead_tooLong {path : Text} {e : Errno}
    (h : pathreaderNext path = .error e) (he : e ≠ .enoent) :
    e = .enametoolong ∧ namesRead path = [] := by
  induction path with
  | nil =>
      cases h
      exact absurd rfl he
  | cons c path ih =>
      have hspec := pathreaderNext_spec (c :: path)
      rw [h] at hspec
      have hfit := hspec.not_namesFit he
      unfold pathreaderNext at h
      cases hfind : kstrchr (c :: path) slash with
      | none =>
          rw [hfind] at h
          cases h
      | some len =>
          obtain ⟨hslash, hsplit, hlength⟩ := kstrchr_some hfind
          rw [hfind] at h
          dsimp only at h
          split at h
          next hlong =>
            cases h
            refine ⟨rfl, ?_⟩
            have hne : (c :: path).take len ≠ [] := by
              rw [← List.length_pos_iff]
              omega
            unfold namesRead
            rw [if_neg hfit, hsplit, names_name slash _ hslash hne]
            exact fitting_cons_of_lt _ (by omega)
          next =>
            split at h
            next hzero =>
              obtain ⟨hname, hnil⟩ := ih h
              refine ⟨hname, ?_⟩
              rw [hzero] at hsplit
              have hc : c = slash := (List.cons.inj hsplit).1
              rw [hc] at hfit ⊢
              have hsame : namesRead (slash :: path) = namesRead path := by
                unfold namesRead
                simp only [namesFit_cons_slash, names_cons_sep]
              rw [hsame, hnil]
            next => cases h

/-! ## The buffer -/

/-- The buffer starts with the names so far, and the rest of it has no
slash. -/
structure Holds (size : ℕ) (behind : Text) (stack : List Text) (inner : Text)
    (memory : Text) : Prop where
  memory : memory = spell slash stack ++ (inner ++ (poisonValues ++ behind))
  size : (spell slash stack).length + inner.length = size
  inner : slash ∉ inner
  stack : ∀ name ∈ stack, slash ∉ name ∧ 0 ∉ name

theorem store_at {size : ℕ} {first inner : Text} (rest bytes : Text)
    (hsize : first.length + inner.length = size)
    (hroom : bytes.length ≤ inner.length) :
    store size (first ++ (inner ++ rest)) first.length bytes =
      .ok (first ++ (bytes ++ (inner.drop bytes.length ++ rest))) := by
  unfold store
  rw [if_pos (by omega), List.take_left, List.drop_append, List.drop_of_length_le
    (Nat.le_add_right first.length bytes.length), Nat.add_sub_cancel_left,
    List.nil_append, List.drop_append_of_le_length hroom]

theorem Holds.push {size : ℕ} {behind : Text} {stack : List Text}
    {inner memory name : Text}
    (h : Holds size behind stack inner memory) (hslash : slash ∉ name)
    (hnul : 0 ∉ name)
    (hroom : (spell slash stack).length + 1 + name.length ≤ size) :
    ∃ memory₁ memory₂,
      store size memory (spell slash stack).length [slash] = .ok memory₁ ∧
      store size memory₁ ((spell slash stack).length + 1) name = .ok memory₂ ∧
      (spell slash (stack ++ [name])).length =
        (spell slash stack).length + 1 + name.length ∧
      Holds size behind (stack ++ [name]) (inner.drop (1 + name.length))
        memory₂ := by
  have hsize := h.size
  have hfirst := store_at (poisonValues ++ behind) [slash] h.size
    (by rw [List.length_singleton]; omega)
  have hsize' : (spell slash stack ++ [slash]).length +
      (inner.drop 1).length = size := by
    rw [List.length_append, List.length_singleton, List.length_drop]
    omega
  have hsecond := store_at (poisonValues ++ behind) name hsize'
    (by rw [List.length_drop]; omega)
  have hspell := spell_concat slash stack name
  rw [List.length_append, List.length_singleton] at hsecond
  rw [List.append_assoc (spell slash stack) [slash]] at hsecond
  rw [h.memory]
  refine ⟨_, _, hfirst, hsecond, ?_, ?_, ?_, ?_, ?_⟩
  · rw [hspell, List.length_append, List.length_cons]
    omega
  · rw [hspell, List.drop_drop]
    simp
  · rw [hspell, List.length_append, List.length_cons, List.length_drop]
    omega
  · exact fun hmem => h.inner (List.mem_of_mem_drop hmem)
  · intro other hother
    rcases List.mem_append.1 hother with hother | hother
    · exact h.stack other hother
    · rw [List.mem_singleton.1 hother]
      exact ⟨hslash, hnul⟩

theorem nul_notMem_spell {stack : List Text}
    (h : ∀ name ∈ stack, 0 ∉ name) : 0 ∉ spell slash stack := by
  intro hmem
  obtain ⟨name, hname, hzero⟩ := List.mem_flatMap.1 hmem
  rcases List.mem_cons.1 hzero with hzero | hzero
  · exact absurd hzero (by decide)
  · exact h name hname hzero

theorem kstrrchr_stack {stack : List Text} {rest : Text}
    (hstack : ∀ name ∈ stack, slash ∉ name ∧ 0 ∉ name) (hstops : Stops rest) :
    ∃ found, kstrrchr (spell slash stack ++ rest) slash = .ok found ∧
      found.getD 0 = (spell slash stack.dropLast).length := by
  rcases List.eq_nil_or_concat stack with hnil | ⟨init, last, hconcat⟩
  · rw [hnil]
    exact ⟨none, kstrrchrLoop_stops hstops 0 none, rfl⟩
  · rw [List.concat_eq_append] at hconcat
    rw [hconcat] at hstack ⊢
    have hlast := hstack last (by simp)
    have hinit : 0 ∉ spell slash init := nul_notMem_spell
      (fun name hname => (hstack name (List.mem_append_left _ hname)).2)
    obtain ⟨result, -, hloop⟩ := kstrrchrLoop_append hinit
      (slash :: (last ++ rest)) 0 none
    obtain ⟨result', hkept, hloop'⟩ := kstrrchrLoop_append hlast.2 rest
      (0 + (spell slash init).length + 1)
      (some (0 + (spell slash init).length))
    refine ⟨some (0 + (spell slash init).length), ?_, ?_⟩
    · unfold kstrrchr
      rw [spell_concat, List.append_assoc, List.cons_append, hloop,
        kstrrchrLoop_cons (by decide), if_pos rfl, hloop', hkept hlast.1]
      exact kstrrchrLoop_stops hstops _ _
    · rw [List.dropLast_concat, Option.getD_some, Nat.zero_add]

theorem spell_dropLast {stack : List Text}
    (hstack : ∀ name ∈ stack, slash ∉ name ∧ 0 ∉ name) :
    ∃ dropped, spell slash stack = spell slash stack.dropLast ++ dropped ∧
      slash ∉ dropped.drop 1 := by
  rcases List.eq_nil_or_concat stack with hnil | ⟨init, last, hconcat⟩
  · rw [hnil]
    exact ⟨[], rfl, List.not_mem_nil⟩
  · rw [List.concat_eq_append] at hconcat
    rw [hconcat] at hstack ⊢
    rw [spell_concat, List.dropLast_concat]
    exact ⟨slash :: last, rfl, (hstack last (by simp)).1⟩

theorem Holds.pop {size : ℕ} {behind : Text} {stack : List Text}
    {inner memory : Text}
    (h : Holds size behind stack inner memory) (hstops : Stops behind)
    (hroom : (spell slash stack).length + 1 ≤ size) :
    ∃ found memory' inner', kstrrchr memory slash = .ok found ∧
      found.getD 0 = (spell slash stack.dropLast).length ∧
      store size memory (found.getD 0) [0] = .ok memory' ∧
      Holds size behind stack.dropLast inner' memory' := by
  have hpoison : Stops (inner ++ (poisonValues ++ behind)) :=
    (hstops.append (by decide)).append h.inner
  obtain ⟨found, hfound, hpos⟩ := kstrrchr_stack h.stack hpoison
  obtain ⟨dropped, hspell, hdropped⟩ := spell_dropLast h.stack
  have hsize := h.size
  rw [hspell, List.length_append] at hsize hroom
  have hsize' : (spell slash stack.dropLast).length +
      (dropped ++ inner).length = size := by
    rw [List.length_append]
    omega
  have hstore := store_at (poisonValues ++ behind) [0] hsize'
    (by rw [List.length_singleton, List.length_append]; omega)
  refine ⟨found, _, 0 :: (dropped ++ inner).drop 1, ?_, hpos, ?_, rfl, ?_, ?_,
    ?_⟩
  · rw [h.memory]
    exact hfound
  · rw [h.memory, hpos, hspell, List.append_assoc, ← List.append_assoc dropped]
    exact hstore
  · rw [List.length_cons, List.length_drop, List.length_append]
    omega
  · intro hmem
    rcases List.mem_cons.1 hmem with hzero | hmem
    · exact absurd hzero (by decide)
    · rw [List.drop_append] at hmem
      rcases List.mem_append.1 hmem with hmem | hmem
      · exact hdropped hmem
      · exact h.inner (List.mem_of_mem_drop hmem)
  · intro name hname
    exact h.stack name (List.mem_of_mem_dropLast hname)

/-! ## The loop -/

/-- What the loop does with the next name. -/
def enterName (size : ℕ) (name : Text) (dest : ℕ) (memory : Text) :
    Except Fault (ℕ × Text) :=
  if name = dot then .ok (dest, memory)
  else if name = dotdot then do
    let foundPos ← kstrrchr memory slash
    let memory ← store size memory (foundPos.getD 0) [0]
    .ok (foundPos.getD 0, memory)
  else do
    let memory ← store size memory dest [slash]
    let memory ← store size memory (dest + 1) name
    .ok (dest + 1 + name.length, memory)

theorem removeRelPathLoop_next {size fuel dest : ℕ}
    {remaining name rest memory : Text}
    (hnext : pathreaderNext remaining = .ok (name, rest)) (hne : name ≠ [])
    (hnul : 0 ∉ name) :
    removeRelPathLoop size (fuel + 1) remaining dest memory =
      (enterName size name dest memory >>= fun r =>
        removeRelPathLoop size fuel rest r.1 r.2) := by
  have hhead : name.headD 0 ≠ 0 := by
    cases name with
    | nil => exact absurd rfl hne
    | cons c name => exact fun hc => hnul (List.mem_cons.2 (Or.inl hc.symm))
  rw [removeRelPathLoop, hnext]
  dsimp only
  unfold enterName
  have hdot := kstrcmp_eq_zero hnul (show 0 ∉ dot by decide)
  have hup := kstrcmp_eq_zero hnul (show 0 ∉ dotdot by decide)
  by_cases hisdot : name = dot
  · rw [if_pos (hdot.2 hisdot), if_pos hisdot]
    rfl
  · rw [if_neg (fun h => hisdot (hdot.1 h)), if_neg hisdot]
    by_cases hisup : name = dotdot
    · rw [if_pos (hup.2 hisup), if_pos hisup]
      simp only [bind_assoc]
      rfl
    · rw [if_neg (fun h => hisup (hup.1 h)), if_neg hisup, if_pos hhead]
      simp only [bind_assoc]
      rfl

/-- There is room for the rest of the path. -/
def Roomy (size : ℕ) (stack : List Text) (remaining : Text) : Prop :=
  (spell slash stack).length + remaining.length + 2 ≤ size ∨
    (remaining = [] ∧ (spell slash stack).length + 1 ≤ size)

theorem Roomy.next {size : ℕ} {stack : List Text} {path name rest : Text}
    (h : Roomy size stack path) (hnext : NextName path name rest) :
    (spell slash stack).length + name.length + 2 ≤ size ∧
      ∀ stack' : List Text, (spell slash stack').length ≤
          (spell slash stack).length + 1 + name.length →
        Roomy size stack' rest := by
  have hpos : 0 < name.length := List.length_pos_iff.2 hnext.ne_nil
  have hroom : (spell slash stack).length + path.length + 2 ≤ size := by
    rcases h with h | ⟨hnil, h⟩
    · exact h
    · have hlength : path.length = 0 := by rw [hnil]; rfl
      rcases hnext.room with hnext | ⟨-, hnext⟩
      · omega
      · omega
  rcases hnext.room with hnext | ⟨hnil, hnext⟩
  · exact ⟨by omega, fun stack' hle => Or.inl (by omega)⟩
  · exact ⟨by omega, fun stack' hle => Or.inr ⟨hnil, by omega⟩⟩

theorem enterName_push {size : ℕ} {behind : Text} {stack : List Text}
    {inner memory name : Text} (h : Holds size behind stack inner memory)
    (hdot : name ≠ dot) (hup : name ≠ dotdot) (hslash : slash ∉ name)
    (hnul : 0 ∉ name)
    (hroom : (spell slash stack).length + 1 + name.length ≤ size) :
    ∃ memory', enterName size name (spell slash stack).length memory =
        .ok ((spell slash (stack ++ [name])).length, memory') ∧
      (spell slash (stack ++ [name])).length =
        (spell slash stack).length + 1 + name.length ∧
      Holds size behind (stack ++ [name]) (inner.drop (1 + name.length))
        memory' := by
  obtain ⟨memory₁, memory₂, hfirst, hsecond, hlength, hholds⟩ :=
    h.push hslash hnul hroom
  refine ⟨memory₂, ?_, hlength, hholds⟩
  unfold enterName
  rw [if_neg hdot, if_neg hup, hfirst]
  show (store size memory₁ _ name >>= _) = _
  rw [hsecond, hlength]
  rfl

theorem enterName_spec {size : ℕ} {behind : Text} {stack : List Text}
    {inner memory path name rest : Text}
    (h : Holds size behind stack inner memory) (hroom : Roomy size stack path)
    (hnext : NextName path name rest) (hnul : 0 ∉ name)
    (hstops : name = dotdot → Stops behind) :
    ∃ memory' inner', enterName size name (spell slash stack).length memory =
        .ok ((spell slash (enter dot dotdot stack name)).length, memory') ∧
      Holds size behind (enter dot dotdot stack name) inner' memory' ∧
      Roomy size (enter dot dotdot stack name) rest := by
  obtain ⟨hfits, hrest⟩ := hroom.next hnext
  unfold enter
  by_cases hdot : name = dot
  · rw [enterName, if_pos hdot, if_pos hdot]
    exact ⟨memory, inner, rfl, h, hrest stack (by omega)⟩
  · rw [if_neg hdot]
    by_cases hup : name = dotdot
    · rw [enterName, if_neg hdot, if_pos hup, if_pos hup]
      obtain ⟨found, memory', inner', hfound, hpos, hstore, hholds⟩ :=
        h.pop (hstops hup) (by omega)
      refine ⟨memory', inner', ?_, hholds, hrest _ ?_⟩
      · rw [hfound]
        show (store size memory (found.getD 0) [0] >>= _) = _
        rw [hstore, hpos]
        rfl
      · obtain ⟨dropped, hspell, -⟩ := spell_dropLast h.stack
        rw [hspell, List.length_append]
        omega
    · rw [if_neg hup]
      obtain ⟨memory', henter, hlength, hholds⟩ :=
        enterName_push h hdot hup hnext.noSlash hnul (by omega)
      exact ⟨memory', _, henter, hholds, hrest _ hlength.le⟩

theorem removeRelPathLoop_ok {size : ℕ} {behind : Text} {fuel : ℕ}
    {stack : List Text} {inner memory remaining : Text}
    (h : Holds size behind stack inner memory)
    (hroom : Roomy size stack remaining) (hnul : 0 ∉ remaining)
    (hfit : NamesFit remaining)
    (hstops : dotdot ∈ names slash remaining → Stops behind)
    (hfuel : remaining.length < fuel) :
    ∃ memory' inner',
      removeRelPathLoop size fuel remaining (spell slash stack).length memory =
        .ok (.ok ((spell slash ((names slash remaining).foldl
          (enter dot dotdot) stack)).length, memory')) ∧
      Holds size behind ((names slash remaining).foldl (enter dot dotdot)
        stack) inner' memory' ∧
      (spell slash ((names slash remaining).foldl (enter dot dotdot)
        stack)).length + 1 ≤ size := by
  induction fuel generalizing stack inner memory remaining with
  | zero => omega
  | succ fuel ih =>
      have hspec := pathreaderNext_spec remaining
      cases hnext : pathreaderNext remaining with
      | error e =>
          rw [hnext] at hspec
          by_cases he : e = .enoent
          · subst he
            obtain ⟨hnames, -⟩ : names slash remaining = [] ∧ _ := hspec
            rw [hnames, removeRelPathLoop, hnext]
            refine ⟨memory, inner, rfl, h, ?_⟩
            show (spell slash stack).length + 1 ≤ size
            rcases hroom with hroom | ⟨-, hroom⟩
            · omega
            · exact hroom
          · exact absurd hfit (hspec.not_namesFit he)
      | ok next =>
          obtain ⟨name, rest⟩ := next
          rw [hnext] at hspec
          have hstep : NextName remaining name rest := hspec
          have hnul' : 0 ∉ name := fun hmem => hnul (hstep.sub 0 hmem)
          rw [removeRelPathLoop_next hnext hstep.ne_nil hnul', hstep.names]
          rw [hstep.names] at hstops
          obtain ⟨memory₁, inner₁, henter, hholds, hroom'⟩ :=
            enterName_spec h hroom hstep hnul' (fun hup => hstops (by simp [hup]))
          rw [henter]
          apply ih hholds hroom'
          · exact fun hmem => hnul (hstep.subRest 0 hmem)
          · exact hstep.fit.1 hfit
          · exact fun hmem => hstops (List.mem_cons_of_mem name hmem)
          · have hlt := hstep.length_lt
            omega

/-- Without a terminator in the buffer, and with a slash in front of the first
one behind it, the search leaves the buffer. -/
theorem Holds.search_leaves {size : ℕ} {behind : Text} {stack : List Text}
    {inner memory : Text} (h : Holds size behind stack inner memory)
    (hfresh : 0 ∉ inner) (hstops : ¬Stops behind) {found : Option ℕ}
    (hfound : kstrrchr memory slash = .ok found) :
    ∃ k, found = some k ∧ size ≤ k := by
  have hnul : 0 ∉ spell slash stack :=
    nul_notMem_spell (fun name hname => (h.stack name hname).2)
  have hrest : ¬Stops (poisonValues ++ behind) := by
    rwa [stops_append (by decide) (by decide)]
  unfold kstrrchr at hfound
  rw [h.memory] at hfound
  obtain ⟨result, -, hloop⟩ := kstrrchrLoop_append hnul
    (inner ++ (poisonValues ++ behind)) 0 none
  obtain ⟨result', -, hloop'⟩ := kstrrchrLoop_append hfresh
    (poisonValues ++ behind) (0 + (spell slash stack).length) result
  rw [hloop, hloop'] at hfound
  obtain ⟨k, hk, hle⟩ := kstrrchrLoop_not_stops hrest hfound
  have hsize := h.size
  exact ⟨k, hk, by omega⟩

theorem removeRelPathLoop_namesFit {size fuel dest dest' : ℕ}
    {remaining memory memory' : Text} (hnul : 0 ∉ remaining)
    (h : removeRelPathLoop size fuel remaining dest memory =
      .ok (.ok (dest', memory'))) : NamesFit remaining := by
  induction fuel generalizing remaining dest memory with
  | zero => cases h
  | succ fuel ih =>
      have hspec := pathreaderNext_spec remaining
      cases hnext : pathreaderNext remaining with
      | error e =>
          rw [hnext] at hspec
          by_cases he : e = .enoent
          · subst he
            exact hspec.2
          · rw [removeRelPathLoop, hnext] at h
            cases e with
            | enoent => exact absurd rfl he
            | _ => cases h
      | ok next =>
          obtain ⟨name, rest⟩ := next
          rw [hnext] at hspec
          have hstep : NextName remaining name rest := hspec
          have hnul' : 0 ∉ name := fun hmem => hnul (hstep.sub 0 hmem)
          rw [removeRelPathLoop_next hnext hstep.ne_nil hnul'] at h
          obtain ⟨r, -, hrest⟩ := bind_eq_ok h
          exact hstep.fit.2
            (ih (fun hmem => hnul (hstep.subRest 0 hmem)) hrest)

/-- The call comes back from a path which goes up only when the memory behind
the buffer stops the search in time. -/
theorem removeRelPathLoop_stops {size : ℕ} {behind : Text} {fuel : ℕ}
    {stack : List Text} {inner memory remaining : Text}
    {r : Except Errno (ℕ × Text)}
    (h : Holds size behind stack inner memory) (hfresh : 0 ∉ inner)
    (hroom : Roomy size stack remaining) (hnul : 0 ∉ remaining)
    (hloop : removeRelPathLoop size fuel remaining (spell slash stack).length
      memory = .ok r)
    (hup : dotdot ∈ namesRead remaining) : Stops behind := by
  induction fuel generalizing stack inner memory remaining with
  | zero => cases hloop
  | succ fuel ih =>
      have hspec := pathreaderNext_spec remaining
      cases hnext : pathreaderNext remaining with
      | error e =>
          rw [hnext] at hspec
          by_cases he : e = .enoent
          · subst he
            obtain ⟨hnames, hfit⟩ : names slash remaining = [] ∧ _ := hspec
            rw [namesRead, if_pos hfit, hnames] at hup
            cases hup
          · rw [(namesRead_tooLong hnext he).2] at hup
            cases hup
      | ok next =>
          obtain ⟨name, rest⟩ := next
          rw [hnext] at hspec
          have hstep : NextName remaining name rest := hspec
          have hnul' : 0 ∉ name := fun hmem => hnul (hstep.sub 0 hmem)
          have hnulRest : 0 ∉ rest := fun hmem => hnul (hstep.subRest 0 hmem)
          rw [removeRelPathLoop_next hnext hstep.ne_nil hnul'] at hloop
          obtain ⟨⟨dest₁, memory₁⟩, henter, hrest⟩ := bind_eq_ok hloop
          obtain ⟨hfits, hroom'⟩ := hroom.next hstep
          rw [namesRead_next hnext, List.mem_cons] at hup
          by_cases hdot : name = dot
          · rw [enterName, if_pos hdot] at henter
            cases henter
            have hup' : dotdot ∈ namesRead rest := by
              refine hup.resolve_left (fun heq => ?_)
              rw [hdot] at heq
              exact absurd heq (by decide)
            exact ih h hfresh (hroom' stack (by omega)) hnulRest hrest hup'
          · by_cases hisup : name = dotdot
            · rw [enterName, if_neg hdot, if_pos hisup] at henter
              obtain ⟨found, hfound, henter⟩ := bind_eq_ok henter
              obtain ⟨memory₂, hstore, -⟩ := bind_eq_ok henter
              by_contra hstops
              obtain ⟨k, rfl, hle⟩ := h.search_leaves hfresh hstops hfound
              unfold store at hstore
              rw [if_neg (by simp; omega)] at hstore
              cases hstore
            · obtain ⟨memory₂, hentered, hlength, hholds⟩ :=
                enterName_push h hdot hisup hstep.noSlash hnul' (by omega)
              rw [hentered] at henter
              cases henter
              exact ih hholds (fun hmem => hfresh (List.mem_of_mem_drop hmem))
                (hroom' _ hlength.le) hnulRest hrest
                (hup.resolve_left (fun heq => hisup heq.symm))

/-! ## The function -/

/-- What `remove_rel_path` needs besides the path. -/
structure Normalisable (room : HeapRoom) (path : Text) : Prop where
  short : path.length + 2 < 4294967296
  allocated : room.allocated = true
  fit : NamesFit path
  stops : dotdot ∈ names slash path → Stops room.behind

theorem freshMemory_holds (size : ℕ) (behind : Text) :
    Holds size behind [] (List.replicate size 0x90)
      (freshMemory size behind) where
  memory := rfl
  size := by simp
  inner := by
    intro hmem
    exact absurd (List.eq_of_mem_replicate hmem) (by decide)
  stack := fun _ hname => absurd hname List.not_mem_nil

theorem removeRelPath_eq {room : HeapRoom} {path : Text}
    (hshort : path.length + 2 < 4294967296)
    (hallocated : room.allocated = true) :
    removeRelPath room path =
      (removeRelPathLoop (path.length + 2) (path.length + 1) path 0
        (freshMemory (path.length + 2) room.behind) >>= fun r =>
        match r with
        | .error e => .ok (.error e)
        | .ok (dest, memory) =>
            store (path.length + 2) memory dest [0] >>= fun memory =>
              .ok (.ok memory)) := by
  unfold removeRelPath
  rw [wrap_of_lt hshort]
  dsimp only
  rw [if_neg (by omega), hallocated]
  rfl

/-- The result of `remove_rel_path` is the normal form of the path. -/
theorem removeRelPath_normal {room : HeapRoom} {path : Text}
    (hnul : 0 ∉ path) (h : Normalisable room path) :
    0 ∉ spell slash (normal slash dot dotdot path) ∧
      ∃ rest, removeRelPath room path =
        .ok (.ok (spell slash (normal slash dot dotdot path) ++ 0 :: rest)) := by
  have hroom : Roomy (path.length + 2) [] path := Or.inl (by simp)
  obtain ⟨memory, inner, hloop, hholds, hend⟩ := removeRelPathLoop_ok
    (freshMemory_holds (path.length + 2) room.behind) hroom hnul h.fit h.stops
    (Nat.lt_succ_self path.length)
  have hsize := hholds.size
  have hstore := store_at (poisonValues ++ room.behind) [0] hholds.size
    (by rw [List.length_singleton]; omega)
  refine ⟨nul_notMem_spell (fun name hname => (hholds.stack name hname).2),
    inner.drop 1 ++ (poisonValues ++ room.behind), ?_⟩
  rw [removeRelPath_eq h.short h.allocated]
  have hloop' : removeRelPathLoop (path.length + 2) (path.length + 1) path 0
      (freshMemory (path.length + 2) room.behind) = _ := hloop
  rw [hloop', hholds.memory]
  show (store _ _ _ [0] >>= _) = _
  rw [hstore]
  rfl

theorem normalisable_of_ok {room : HeapRoom} {path memory : Text}
    (hnul : 0 ∉ path) (hlength : path.length + 1 < 4294967296)
    (h : removeRelPath room path = .ok (.ok memory)) :
    Normalisable room path := by
  have hshort : path.length + 2 < 4294967296 := by
    by_contra hlong
    have hsize : wrap (path.length + 2) = 0 := by
      unfold wrap
      omega
    unfold removeRelPath at h
    rw [hsize] at h
    cases h
  have hallocated : room.allocated = true := by
    by_contra hfull
    unfold removeRelPath at h
    rw [wrap_of_lt hshort] at h
    dsimp only at h
    rw [if_neg (by omega), Bool.eq_false_iff.2 hfull] at h
    cases h
  rw [removeRelPath_eq hshort hallocated] at h
  obtain ⟨r, hloop, hrest⟩ := bind_eq_ok h
  cases r with
  | error e => cases hrest
  | ok r =>
      obtain ⟨dest, memory'⟩ := r
      have hfit := removeRelPathLoop_namesFit hnul hloop
      refine ⟨hshort, hallocated, hfit, ?_⟩
      have hread : namesRead path = names slash path := if_pos hfit
      rw [← hread]
      have hfresh : 0 ∉ List.replicate (path.length + 2) (0x90 : BitVec 8) :=
        fun hmem => absurd (List.eq_of_mem_replicate hmem) (by decide)
      exact removeRelPathLoop_stops
        (freshMemory_holds (path.length + 2) room.behind) hfresh
        (Or.inl (by simp)) hnul hloop

end Vfs
end Yjkos
