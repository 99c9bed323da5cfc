/-
The listing of a directory tree by `io/deepDir.c`.  One counter is the depth of
all the calls of `deep`, each call builds paths in 1024 bytes of its own, no
stream of a directory is closed again, and a size is printed as an `int`.
-/
import LinuxTest.ByteString
import LinuxTest.MachineInt

namespace LinuxTest

namespace DeepDir

/-- What `readdir` gives one after the other: directories, with what it gives
in them if they can be opened, and other entries, with the size that `stat`
finds, if it does. -/
inductive Dir where
  | stop
  | dir (name : Bytes) (readable : Bool) (inner rest : Dir)
  | other (name : Bytes) (size : Option Nat) (rest : Dir)

/-- A printed line, behind as many dashes as `depth`. -/
inductive Line where
  | dir (depth : Int) (path : Bytes)
  | file (depth : Int) (path : Bytes) (size : Int)
deriving DecidableEq

/-- The line as it comes out: `%d` shows the low 32 bits of an `off_t`. -/
def Line.printed : Line → Line
  | .dir depth path => .dir depth path
  | .file depth path size => .file depth path (asInt size)

structure State where
  count : Int
  /-- The streams that are open. -/
  streams : Nat
  output : List Line
deriving DecidableEq

/-- How the program can end before it is through. -/
inductive Stop where
  /-- By `exit(1)`, with what it has printed. -/
  | exit (output : List Line)
  /-- By a write past the end of `newpath` or by reading from no stream. -/
  | fault

def start : State := ⟨-1, 0, []⟩

def print (s : State) (line : Line) : State :=
  { s with output := s.output ++ [line.printed] }

def dot : Bytes := [46]

def dotdot : Bytes := [46, 46]

/-- `path`, a slash and `name` in `newpath`, which is full with 1023 bytes. -/
def newpath (path name : Bytes) : Except Stop (Bytes) :=
  if path.length + 1 + name.length < 1024 then .ok (path ++ 47 :: name)
  else .error .fault

/-- The first lines of `deep`. Up to `limit` streams can be open. -/
def enter (limit : Nat) (readable : Bool) (s : State) : Except Stop State :=
  if readable ∧ s.streams < limit then
    .ok { s with count := s.count + 1, streams := s.streams + 1 }
  else .error .fault

def print_file_info (s : State) (path : Bytes) :
    Option Nat → Except Stop State
  | none => .error (.exit s.output)
  | some size => .ok (print s (.file s.count path size))

/-- The loop of `deep`. -/
def deepLoop (limit : Nat) (path : Bytes) :
    Dir → State → Except Stop State
  | .stop, s => .ok s
  | .dir name readable inner rest, s =>
      if dot = name ∨ dotdot = name then deepLoop limit path rest s
      else do
        let path' ← newpath path name
        let s ← enter limit readable (print s (.dir s.count path'))
        let s ← deepLoop limit path' inner s
        deepLoop limit path rest { s with count := s.count - 1 }
  | .other name size rest, s =>
      if dot = name ∨ dotdot = name then deepLoop limit path rest s
      else do
        let path' ← newpath path name
        let s ← print_file_info s path' size
        deepLoop limit path rest s

def deep (limit : Nat) (path : Bytes) (readable : Bool) (d : Dir)
    (s : State) : Except Stop State := do
  let s ← enter limit readable s
  deepLoop limit path d s

/-! ### The listing -/

/-- What should be printed of a directory at `path`, `depth` deep, with the
sizes that the files have. -/
def listing (depth : Int) (path : Bytes) : Dir → List Line
  | .stop => []
  | .dir name _ inner rest =>
      if dot = name ∨ dotdot = name then listing depth path rest
      else
        .dir depth (path ++ 47 :: name) ::
          (listing (depth + 1) (path ++ 47 :: name) inner ++
            listing depth path rest)
  | .other name size rest =>
      if dot = name ∨ dotdot = name then listing depth path rest
      else
        .file depth (path ++ 47 :: name) (size.getD 0) ::
          listing depth path rest

/-- The directories below. -/
def directories : Dir → Nat
  | .stop => 0
  | .dir name _ inner rest =>
      if dot = name ∨ dotdot = name then directories rest
      else directories inner + directories rest + 1
  | .other _ _ rest => directories rest

/-- The sizes of the other entries. -/
def sizes : Dir → List Nat
  | .stop => []
  | .dir name _ inner rest =>
      if dot = name ∨ dotdot = name then sizes rest
      else sizes inner ++ sizes rest
  | .other name size rest =>
      if dot = name ∨ dotdot = name then sizes rest
      else size.getD 0 :: sizes rest

/-- Every path below has a place in 1024 bytes, every directory can be opened
as far as it is concerned, and every other entry has a size. -/
def Listable (path : Bytes) : Dir → Prop
  | .stop => True
  | .dir name readable inner rest =>
      ((dot = name ∨ dotdot = name) ∨
        (path.length + 1 + name.length < 1024 ∧ readable = true ∧
          Listable (path ++ 47 :: name) inner)) ∧
      Listable path rest
  | .other name size rest =>
      ((dot = name ∨ dotdot = name) ∨
        (path.length + 1 + name.length < 1024 ∧ size ≠ none)) ∧
      Listable path rest

variable {limit : Nat} {path path' name : Bytes} {readable : Bool} {d : Dir}
  {s s' : State}

theorem bind_eq_ok {A B : Type} {x : Except Stop A} {f : A → Except Stop B}
    {b : B} : x >>= f = .ok b ↔ ∃ a, x = .ok a ∧ f a = .ok b := by
  cases x with
  | error e =>
      refine iff_of_false (fun h => nomatch h) ?_
      rintro ⟨a, ha, -⟩
      cases ha
  | ok a =>
      constructor
      · exact fun h => ⟨a, rfl, h⟩
      · rintro ⟨_, ha, h⟩
        cases ha
        exact h

theorem newpath_eq_ok_iff : newpath path name = .ok path' ↔
    path.length + 1 + name.length < 1024 ∧ path' = path ++ 47 :: name := by
  rw [newpath]
  by_cases hfits : path.length + 1 + name.length < 1024
  · rw [if_pos hfits, Except.ok.injEq, eq_comm]
    exact (and_iff_right hfits).symm
  · rw [if_neg hfits]
    exact iff_of_false (fun h => nomatch h) fun h => hfits h.1

theorem enter_eq_ok_iff : enter limit readable s = .ok s' ↔
    readable = true ∧ s.streams < limit ∧
      s' = { s with count := s.count + 1, streams := s.streams + 1 } := by
  rw [enter, ← and_assoc]
  by_cases hopen : readable = true ∧ s.streams < limit
  · rw [if_pos hopen, Except.ok.injEq, eq_comm]
    exact (and_iff_right hopen).symm
  · rw [if_neg hopen]
    exact iff_of_false (fun h => nomatch h) fun h => hopen h.1

theorem print_file_info_eq_ok_iff {size : Option Nat} :
    print_file_info s path size = .ok s' ↔
      size ≠ none ∧ s' = print s (.file s.count path (size.getD 0)) := by
  cases size with
  | none => exact iff_of_false (fun h => nomatch h) fun h => h.1 rfl
  | some size =>
      rw [print_file_info, Except.ok.injEq, eq_comm]
      exact (and_iff_right (Option.some_ne_none _)).symm

/-- One call's loop: the counter is back, and one stream more is open for every
directory below. -/
theorem deepLoop_eq_ok_iff (hs : s.streams ≤ limit) :
    deepLoop limit path d s = .ok s' ↔
      Listable path d ∧ s.streams + directories d ≤ limit ∧
        s' = ⟨s.count, s.streams + directories d,
          s.output ++ (listing s.count path d).map Line.printed⟩ := by
  induction d generalizing path s s' with
  | stop =>
      rw [deepLoop, Except.ok.injEq, directories, listing, List.map_nil,
        List.append_nil, eq_comm]
      exact ⟨fun h => ⟨trivial, hs, h⟩, fun h => h.2.2⟩
  | dir name readable inner rest ihInner ihRest =>
      rw [deepLoop, directories, listing, Listable]
      by_cases hskip : dot = name ∨ dotdot = name
      · rw [if_pos hskip, if_pos hskip, if_pos hskip, ihRest hs]
        simp [hskip]
      · rw [if_neg hskip, if_neg hskip, if_neg hskip, or_iff_right hskip]
        simp only [bind_eq_ok, newpath_eq_ok_iff, enter_eq_ok_iff]
        have hinner := fun s₂ hle => @ihInner (path ++ 47 :: name)
          ⟨s.count + 1, s.streams + 1,
            s.output ++ [.dir s.count (path ++ 47 :: name)]⟩ s₂ hle
        have hrest := fun output hle => @ihRest path
          ⟨s.count + 1 - 1, s.streams + 1 + directories inner, output⟩ s' hle
        constructor
        · rintro ⟨_, ⟨hfits, rfl⟩, _, ⟨hopen, hlt, rfl⟩, s₂, hfirst, hlast⟩
          obtain ⟨hlist, hle, rfl⟩ := (hinner s₂ hlt).mp hfirst
          obtain ⟨hlist', hle', rfl⟩ := (hrest _ hle).mp hlast
          refine ⟨⟨⟨hfits, hopen, hlist⟩, hlist'⟩, ?_, ?_⟩
          · change s.streams + 1 + directories inner + directories rest ≤ limit
              at hle'
            omega
          · simp only [Int.add_sub_cancel, State.mk.injEq, true_and,
              List.map_cons, List.map_append, Line.printed,
              List.append_assoc, List.cons_append, List.nil_append, and_true]
            omega
        · rintro ⟨⟨⟨hfits, hopen, hlist⟩, hlist'⟩, hle, rfl⟩
          have hlt : s.streams < limit := by omega
          have hle' : s.streams + 1 + directories inner ≤ limit := by omega
          refine ⟨_, ⟨hfits, rfl⟩, _, ⟨hopen, hlt, rfl⟩, _,
            (hinner _ hlt).mpr ⟨hlist, hle', rfl⟩, (hrest _ hle').mpr
              ⟨hlist', ?_, ?_⟩⟩
          · change s.streams + 1 + directories inner + directories rest ≤ limit
            omega
          · simp only [Int.add_sub_cancel, State.mk.injEq, true_and,
              List.map_cons, List.map_append, Line.printed,
              List.append_assoc, List.cons_append, List.nil_append, and_true]
            omega
  | other name size rest ih =>
      rw [deepLoop, directories, listing, Listable]
      by_cases hskip : dot = name ∨ dotdot = name
      · rw [if_pos hskip, if_pos hskip, ih hs]
        simp [hskip]
      · rw [if_neg hskip, if_neg hskip, or_iff_right hskip]
        simp only [bind_eq_ok, newpath_eq_ok_iff, print_file_info_eq_ok_iff]
        have hrest := @ih path
          (print s (.file s.count (path ++ 47 :: name) (size.getD 0))) s' hs
        constructor
        · rintro ⟨_, ⟨hfits, rfl⟩, _, ⟨hsize, rfl⟩, hlast⟩
          obtain ⟨hlist, hle, rfl⟩ := hrest.mp hlast
          refine ⟨⟨⟨hfits, hsize⟩, hlist⟩, hle, ?_⟩
          simp [print]
        · rintro ⟨⟨⟨hfits, hsize⟩, hlist⟩, hle, rfl⟩
          refine ⟨_, ⟨hfits, rfl⟩, _, ⟨hsize, rfl⟩,
            hrest.mpr ⟨hlist, hle, ?_⟩⟩
          simp [print]

/-! ### Where a file has no size -/

theorem bind_eq_error {A B : Type} {x : Except Stop A} {f : A → Except Stop B}
    {e : Stop} : x >>= f = .error e ↔
      x = .error e ∨ ∃ a, x = .ok a ∧ f a = .error e := by
  cases x with
  | error other =>
      constructor
      · intro h
        cases h
        exact Or.inl rfl
      · rintro (h | ⟨a, ha, -⟩)
        · cases h
          rfl
        · cases ha
  | ok a =>
      constructor
      · exact fun h => Or.inr ⟨a, rfl, h⟩
      · rintro (h | ⟨_, ha, h⟩)
        · cases h
        · cases ha
          exact h

theorem newpath_ne_exit {output : List Line} :
    newpath path name ≠ .error (.exit output) := by
  rw [newpath]
  split
  · exact fun h => nomatch h
  · exact fun h => nomatch h

theorem enter_ne_exit {output : List Line} :
    enter limit readable s ≠ .error (.exit output) := by
  rw [enter]
  split
  · exact fun h => nomatch h
  · exact fun h => nomatch h

/-- What is printed before is the beginning of the listing. -/
theorem prefix_of_exit {output : List Line} (hs : s.streams ≤ limit)
    (hexit : deepLoop limit path d s = .error (.exit output)) :
    output <+: s.output ++ (listing s.count path d).map Line.printed := by
  induction d generalizing path s with
  | stop => cases hexit
  | dir name readable inner rest ihInner ihRest =>
      rw [deepLoop] at hexit
      rw [listing]
      by_cases hskip : dot = name ∨ dotdot = name
      · rw [if_pos hskip] at hexit ⊢
        exact ihRest hs hexit
      · rw [if_neg hskip] at hexit ⊢
        obtain h | ⟨path', hpath, hexit⟩ := bind_eq_error.mp hexit
        · exact absurd h newpath_ne_exit
        obtain ⟨-, rfl⟩ := newpath_eq_ok_iff.mp hpath
        obtain h | ⟨s₁, hs₁, hexit⟩ := bind_eq_error.mp hexit
        · exact absurd h enter_ne_exit
        obtain ⟨-, hlt, rfl⟩ := enter_eq_ok_iff.mp hs₁
        rw [List.map_cons, List.map_append, List.append_cons s.output,
          ← List.append_assoc]
        obtain h | ⟨s₂, hs₂, hexit⟩ := bind_eq_error.mp hexit
        · have hinner := @ihInner (path ++ 47 :: name) ⟨s.count + 1,
            s.streams + 1, s.output ++ [Line.dir s.count (path ++ 47 :: name)]⟩
            hlt h
          exact hinner.trans (List.prefix_append _ _)
        · obtain ⟨-, hle, rfl⟩ := (@deepLoop_eq_ok_iff limit _ _
            ⟨s.count + 1, s.streams + 1,
              s.output ++ [Line.dir s.count (path ++ 47 :: name)]⟩ s₂ hlt).mp
            hs₂
          have hrest := @ihRest path ⟨s.count + 1 - 1, _, _⟩ hle hexit
          simpa only [print, Line.printed, Int.add_sub_cancel] using hrest
  | other name size rest ih =>
      rw [deepLoop] at hexit
      rw [listing]
      by_cases hskip : dot = name ∨ dotdot = name
      · rw [if_pos hskip] at hexit ⊢
        exact ih hs hexit
      · rw [if_neg hskip] at hexit ⊢
        obtain h | ⟨path', hpath, hexit⟩ := bind_eq_error.mp hexit
        · exact absurd h newpath_ne_exit
        obtain ⟨-, rfl⟩ := newpath_eq_ok_iff.mp hpath
        obtain h | ⟨s₁, hs₁, hexit⟩ := bind_eq_error.mp hexit
        · cases size with
          | none =>
              cases h
              exact List.prefix_append _ _
          | some size => cases h
        · obtain ⟨-, rfl⟩ := print_file_info_eq_ok_iff.mp hs₁
          have hrest := @ih path
            (print s (.file s.count (path ++ 47 :: name) (size.getD 0))) hs
            hexit
          rw [List.map_cons, List.append_cons s.output]
          exact hrest

/-! ### The sizes -/

theorem asInt_eq_iff (size : Nat) : asInt size = size ↔ size < 2 ^ 31 := by
  constructor
  · intro h
    have hlt := asInt_lt size
    omega
  · intro h
    exact asInt_of_lt size (Int.natCast_nonneg size) (by omega)

/-- A list comes out as it is where each size is an `int`. -/
theorem map_printed_eq_iff (depth : Int) (path : Bytes) (d : Dir) :
    (listing depth path d).map Line.printed = listing depth path d ↔
      ∀ size ∈ sizes d, size < 2 ^ 31 := by
  induction d generalizing depth path with
  | stop => simp [listing, sizes]
  | dir name readable inner rest ihInner ihRest =>
      rw [listing, sizes]
      by_cases hskip : dot = name ∨ dotdot = name
      · rw [if_pos hskip, if_pos hskip]
        exact ihRest depth path
      · rw [if_neg hskip, if_neg hskip, List.map_cons, List.map_append,
          Line.printed, List.cons.injEq, List.forall_mem_append,
          ← ihInner (depth + 1) (path ++ 47 :: name), ← ihRest depth path]
        constructor
        · rintro ⟨-, h⟩
          exact List.append_inj h (List.length_map _)
        · rintro ⟨hinner, hrest⟩
          rw [hinner, hrest]
          exact ⟨rfl, rfl⟩
  | other name size rest ih =>
      rw [listing, sizes]
      by_cases hskip : dot = name ∨ dotdot = name
      · rw [if_pos hskip, if_pos hskip]
        exact ih depth path
      · rw [if_neg hskip, if_neg hskip, List.map_cons, Line.printed,
          List.cons.injEq, Line.file.injEq, List.forall_mem_cons,
          ih depth path, asInt_eq_iff]
        simp

/-! ### The program -/

/-- How the program comes to its end. -/
theorem deep_eq_ok_iff : deep limit path readable d start = .ok s ↔
    (readable = true ∧ Listable path d ∧ directories d + 1 ≤ limit) ∧
      s = ⟨0, directories d + 1, (listing 0 path d).map Line.printed⟩ := by
  rw [deep, bind_eq_ok]
  simp only [enter_eq_ok_iff]
  have hloop := fun hle => @deepLoop_eq_ok_iff limit path d ⟨0, 1, []⟩ s hle
  constructor
  · rintro ⟨_, ⟨hopen, hlt, rfl⟩, hlast⟩
    obtain ⟨hlist, hle, rfl⟩ := (hloop hlt).mp hlast
    refine ⟨⟨hopen, hlist, ?_⟩, ?_⟩
    · change 1 + directories d ≤ limit at hle
      omega
    · rw [List.nil_append, Nat.add_comm]
  · rintro ⟨⟨hopen, hlist, hle⟩, rfl⟩
    have hlt : 0 < limit := by omega
    refine ⟨_, ⟨hopen, hlt, rfl⟩, (hloop hlt).mpr ⟨hlist, ?_, ?_⟩⟩
    · change 1 + directories d ≤ limit
      omega
    · rw [List.nil_append, Nat.add_comm]

/-- The program lists the whole tree, each entry as deep as it lies and in the
order of the streams, exactly when the directory can be opened, every path below
has a place in its 1024 bytes, every directory below can be opened, every other
entry has a size that is an `int`, and one stream for each directory of the tree
can be open at the same time.  Where it gives up at an entry without a size, it
has printed the beginning of that list, as far as `%d` shows the sizes. -/
theorem deep_lists_iff (limit : Nat) (path : Bytes) (readable : Bool)
    (d : Dir) :
    ((∃ s, deep limit path readable d start = .ok s ∧
        s.output = listing 0 path d) ↔
      readable = true ∧ Listable path d ∧ directories d + 1 ≤ limit ∧
        ∀ size ∈ sizes d, size < 2 ^ 31) ∧
      ∀ output, deep limit path readable d start = .error (.exit output) →
        output <+: (listing 0 path d).map Line.printed := by
  refine ⟨?_, ?_⟩
  · rw [← map_printed_eq_iff 0 path d]
    constructor
    · rintro ⟨s, hs, hlists⟩
      obtain ⟨⟨hopen, hlist, hle⟩, rfl⟩ := deep_eq_ok_iff.mp hs
      exact ⟨hopen, hlist, hle, hlists⟩
    · rintro ⟨hopen, hlist, hle, hlists⟩
      exact ⟨_, deep_eq_ok_iff.mpr ⟨⟨hopen, hlist, hle⟩, rfl⟩, hlists⟩
  · intro output hexit
    obtain h | ⟨s, hs, hexit⟩ := bind_eq_error.mp hexit
    · exact absurd h enter_ne_exit
    · obtain ⟨-, hlt, rfl⟩ := enter_eq_ok_iff.mp hs
      exact prefix_of_exit hlt hexit

/-- Two directories, one in the other, and a limit of one stream. -/
example : deep 1 [46] true
    (.dir [46] true .stop (.dir [97] true .stop .stop)) start =
    .error .fault := rfl

end DeepDir

end LinuxTest
