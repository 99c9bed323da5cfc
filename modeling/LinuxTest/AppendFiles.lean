/-
Files that are only appended to.  A name leads to a file until it is removed;
who has the file open goes on writing to it, and a name that leads nowhere is
opened as a new file.  What one writer has written is read off the files in the
order in which they were made.
-/
import Mathlib.Data.List.Basic
import Mathlib.Logic.Function.Basic

namespace LinuxTest

universe u v

/-- The files are numbered as they are made. -/
structure Disk (K : Type u) (E : Type v) where
  names : K → Option Nat
  files : List (List E)

namespace Disk

variable {K : Type u} {E : Type v}

def blank : Disk K E :=
  ⟨fun _ => none, []⟩

variable [DecidableEq K]

/-- The file behind a name, made if there is none. -/
def openAppend (k : K) (d : Disk K E) : Nat × Disk K E :=
  match d.names k with
  | some n => (n, d)
  | none => (d.files.length,
      ⟨Function.update d.names k (some d.files.length), d.files ++ [[]]⟩)

def remove (k : K) (d : Disk K E) : Disk K E :=
  { d with names := Function.update d.names k none }

omit [DecidableEq K]

def append (n : Nat) (e : E) (d : Disk K E) : Disk K E :=
  { d with files := d.files.modify n (· ++ [e]) }

/-- What one writer has written, file after file. -/
def entries (mine : E → Bool) (d : Disk K E) : List E :=
  d.files.flatten.filter mine

/-- The names lead to files. -/
def Linked (d : Disk K E) : Prop :=
  ∀ k n, d.names k = some n → n < d.files.length

/-- There is nothing of the writer behind file `n`. -/
def UpTo (mine : E → Bool) (n : Nat) (d : Disk K E) : Prop :=
  ∀ m file, n < m → d.files[m]? = some file → ∀ e ∈ file, mine e = false

variable {d : Disk K E} {mine : E → Bool} {e : E} {n : Nat}

theorem linked_blank : (blank : Disk K E).Linked := by
  intro k n hn
  cases hn

theorem filter_flatten_of_none {files : List (List E)}
    (hnone : ∀ file ∈ files, ∀ e ∈ file, mine e = false) :
    files.flatten.filter mine = [] := by
  rw [List.filter_eq_nil_iff]
  intro e he
  obtain ⟨file, hfile, hmem⟩ := List.mem_flatten.mp he
  simp [hnone file hfile e hmem]

/-! ### Appending -/

@[simp] theorem length_append (n : Nat) (e : E) (d : Disk K E) :
    (d.append n e).files.length = d.files.length := by
  simp [append]

theorem getElem?_append (n : Nat) (e : E) (d : Disk K E) (m : Nat) :
    (d.append n e).files[m]? =
      if n = m then (d.files[m]?).map (· ++ [e]) else d.files[m]? := by
  rw [append, List.getElem?_modify]
  split <;> simp

theorem Linked.append (hd : d.Linked) (n : Nat) (e : E) :
    (d.append n e).Linked := by
  intro k m hm
  rw [length_append]
  exact hd k m hm

theorem UpTo.append (hd : d.UpTo mine n) {m : Nat}
    (hle : mine e = true → m ≤ n) : (d.append m e).UpTo mine n := by
  intro k file hk hfile x hx
  rw [getElem?_append] at hfile
  split at hfile
  · case isTrue hmk =>
      rw [Option.map_eq_some_iff] at hfile
      obtain ⟨old, hold, rfl⟩ := hfile
      obtain hx | hx := List.mem_append.mp hx
      · exact hd k old hk hold x hx
      · obtain rfl : x = e := List.mem_singleton.mp hx
        by_contra htrue
        have hmn := hle (by simpa using htrue)
        omega
  · exact hd k file hk hfile x hx

/-- Behind the last file of the writer, an entry comes last. -/
theorem entries_append (hlt : n < d.files.length) (hd : d.UpTo mine n)
    (hmine : mine e = true) :
    (d.append n e).entries mine = d.entries mine ++ [e] := by
  obtain ⟨before, file, after, hfiles, hn⟩ : ∃ before file after,
      d.files = before ++ file :: after ∧ before.length = n := by
    refine ⟨d.files.take n, d.files[n], d.files.drop (n + 1), ?_, ?_⟩
    · rw [List.getElem_cons_drop, List.take_append_drop]
    · exact List.length_take_of_le (Nat.le_of_lt hlt)
  have hafter : after.flatten.filter mine = [] := by
    refine filter_flatten_of_none fun other hother x hx => ?_
    obtain ⟨i, hi⟩ := List.mem_iff_getElem?.mp hother
    have hindex : n + 1 + i - before.length = i + 1 := by omega
    refine hd (n + 1 + i) other (by omega) ?_ x hx
    rw [hfiles, List.getElem?_append_right (by omega), hindex,
      List.getElem?_cons_succ, hi]
  have hnew : (d.append n e).files = before ++ (file ++ [e]) :: after := by
    change d.files.modify n _ = _
    rw [hfiles, ← hn, List.modify_eq_take_cons_drop (by simp)]
    simp
  rw [entries, entries, hnew, hfiles]
  simp [hafter, hmine]

/-- Another writer's entry does not matter. -/
theorem entries_append_other (n : Nat) (hmine : mine e = false) :
    (d.append n e).entries mine = d.entries mine := by
  rw [entries, entries, append]
  generalize d.files = files
  induction files generalizing n with
  | nil => simp
  | cons file files ih =>
      cases n with
      | zero => simp [hmine]
      | succ n => simpa using ih n

/-! ### Opening and removing -/

variable [DecidableEq K] {k : K}

theorem files_openAppend (k : K) (d : Disk K E) :
    (d.openAppend k).2.files = d.files ∨
      (d.openAppend k).2.files = d.files ++ [[]] := by
  rw [openAppend]
  split
  · exact Or.inl rfl
  · exact Or.inr rfl

theorem length_le_openAppend (k : K) (d : Disk K E) :
    d.files.length ≤ (d.openAppend k).2.files.length := by
  obtain hfiles | hfiles := files_openAppend k d
  · exact Nat.le_of_eq (congrArg List.length hfiles).symm
  · rw [hfiles, List.length_append]
    exact Nat.le_add_right _ _

@[simp] theorem entries_openAppend (mine : E → Bool) (k : K) (d : Disk K E) :
    (d.openAppend k).2.entries mine = d.entries mine := by
  obtain hfiles | hfiles := files_openAppend k d
  · rw [entries, entries, hfiles]
  · rw [entries, entries, hfiles]
    simp

theorem UpTo.openAppend (hd : d.UpTo mine n) (k : K) :
    (d.openAppend k).2.UpTo mine n := by
  obtain hfiles | hfiles := files_openAppend k d
  · rw [UpTo, hfiles]
    exact hd
  · intro m file hm hfile x hx
    rw [hfiles, List.getElem?_append] at hfile
    split at hfile
    · exact hd m file hm hfile x hx
    · rw [List.getElem?_singleton] at hfile
      split at hfile
      · cases hfile
        cases hx
      · cases hfile

/-- The name leads to the file that is opened, the others where they led. -/
theorem names_openAppend (k other : K) (d : Disk K E) :
    (d.openAppend k).2.names other =
      if other = k then some (d.openAppend k).1 else d.names other := by
  by_cases heq : other = k
  · subst heq
    rw [if_pos rfl, openAppend]
    split
    · case h_1 n hn => exact hn
    · exact Function.update_self ..
  · rw [if_neg heq, openAppend]
    split
    · rfl
    · exact Function.update_of_ne heq ..

theorem Linked.openAppend_lt (hd : d.Linked) (k : K) :
    (d.openAppend k).1 < (d.openAppend k).2.files.length := by
  rw [openAppend]
  split
  · case h_1 n hn => exact hd k n hn
  · simp

theorem Linked.openAppend (hd : d.Linked) (k : K) :
    (d.openAppend k).2.Linked := by
  intro other n hn
  rw [names_openAppend] at hn
  split at hn
  · cases hn
    exact hd.openAppend_lt k
  · exact Nat.lt_of_lt_of_le (hd other n hn) (length_le_openAppend k d)

/-- A file opened by name is the one the name led to, or behind all files. -/
theorem openAppend_fst (k : K) (d : Disk K E) :
    d.names k = some (d.openAppend k).1 ∨
      (d.names k = none ∧ (d.openAppend k).1 = d.files.length) := by
  rw [openAppend]
  split
  · case h_1 n hn => exact Or.inl hn
  · case h_2 hn => exact Or.inr ⟨hn, rfl⟩

theorem names_remove (k other : K) (d : Disk K E) :
    (d.remove k).names other = if other = k then none else d.names other := by
  rw [remove]
  by_cases heq : other = k
  · rw [heq, if_pos rfl]
    exact Function.update_self ..
  · rw [if_neg heq]
    exact Function.update_of_ne heq ..

theorem Linked.remove (hd : d.Linked) (k : K) : (d.remove k).Linked := by
  intro other n hn
  rw [names_remove] at hn
  split at hn
  · cases hn
  · exact hd other n hn

/-! ### A writer -/

/-- A writer that opens its file by `name` and has `handle` open is at the last
of its files. -/
structure Follows (mine : E → Bool) (name : K) (handle : Option Nat)
    (d : Disk K E) : Prop where
  handle : ∀ n, handle = some n → n < d.files.length ∧ d.UpTo mine n ∧
    ∀ m, d.names name = some m → n ≤ m
  named : ∀ m, d.names name = some m → d.UpTo mine m

variable {name : K} {handle : Option Nat}

omit [DecidableEq K] in
theorem upTo_of_entries (hnone : d.entries mine = []) (n : Nat) :
    d.UpTo mine n := by
  intro m file _ hfile e he
  have hmem : e ∈ d.files.flatten :=
    List.mem_flatten.mpr ⟨file, List.mem_of_getElem? hfile, he⟩
  simpa using List.filter_eq_nil_iff.mp hnone e hmem

omit [DecidableEq K] in
/-- Who has written nothing may start with any name. -/
theorem follows_of_entries (hnone : d.entries mine = []) (name : K) :
    d.Follows mine name none :=
  ⟨fun _ hn => absurd hn (Option.some_ne_none _).symm,
    fun m _ => upTo_of_entries hnone m⟩

omit [DecidableEq K] in
theorem Follows.closed (hf : d.Follows mine name handle) :
    d.Follows mine name none :=
  ⟨fun _ hn => absurd hn (Option.some_ne_none _).symm, hf.named⟩

/-- Another file is opened, or the writer's own. -/
theorem Follows.openAppend (hf : d.Follows mine name handle) (k : K) :
    (d.openAppend k).2.Follows mine name handle := by
  have hnew := openAppend_fst k d
  constructor
  · intro n hn
    obtain ⟨hlt, hupTo, hle⟩ := hf.handle n hn
    refine ⟨Nat.lt_of_lt_of_le hlt (length_le_openAppend k d),
      hupTo.openAppend k, ?_⟩
    intro m hm
    rw [names_openAppend] at hm
    split at hm
    · case isTrue heq =>
        cases hm
        obtain hold | ⟨-, hlast⟩ := hnew
        · exact hle _ (heq ▸ hold)
        · omega
    · exact hle m hm
  · intro m hm
    rw [names_openAppend] at hm
    split at hm
    · case isTrue heq =>
        cases hm
        obtain hold | ⟨hnone, hlast⟩ := hnew
        · exact (hf.named _ (heq ▸ hold)).openAppend k
        · intro i file hi hfile
          have hbound := (List.getElem?_eq_some_iff.mp hfile).1
          rw [Disk.openAppend, hnone] at hbound hi
          simp at hbound hi
          omega
    · exact (hf.named m hm).openAppend k

theorem Follows.opened (hf : d.Follows mine name handle) (hd : d.Linked) :
    (d.openAppend name).2.Follows mine name (some (d.openAppend name).1) := by
  have hnew := hf.openAppend name
  have hname : (d.openAppend name).2.names name =
      some (d.openAppend name).1 := by
    rw [names_openAppend, if_pos rfl]
  refine ⟨?_, hnew.named⟩
  intro n hn
  cases hn
  refine ⟨hd.openAppend_lt name, hnew.named _ hname, ?_⟩
  intro m hm
  rw [hname] at hm
  cases hm
  exact Nat.le_refl _

omit [DecidableEq K] in
theorem Follows.append (hf : d.Follows mine name handle) {n : Nat}
    (hmine : mine e = true → handle = some n) :
    (d.append n e).Follows mine name handle := by
  constructor
  · intro m hm
    obtain ⟨hlt, hupTo, hle⟩ := hf.handle m hm
    refine ⟨by simpa using hlt, hupTo.append fun htrue => ?_, hle⟩
    have heq : some m = some n := hm.symm.trans (hmine htrue)
    exact Nat.le_of_eq (Option.some.inj heq).symm
  · intro m hm
    exact (hf.named m hm).append fun htrue =>
      (hf.handle n (hmine htrue)).2.2 m hm

theorem Follows.remove (hf : d.Follows mine name handle) (k : K) :
    (d.remove k).Follows mine name handle := by
  have hback {m : Nat} (hm : (d.remove k).names name = some m) :
      d.names name = some m := by
    rw [names_remove] at hm
    split at hm
    · cases hm
    · exact hm
  constructor
  · intro n hn
    obtain ⟨hlt, hupTo, hle⟩ := hf.handle n hn
    exact ⟨hlt, hupTo, fun m hm => hle m (hback hm)⟩
  · intro m hm
    exact hf.named m (hback hm)

end Disk

end LinuxTest
