/-
The two recursions for the longest common subsequence of two byte strings, the
plain one and the one with a table.  Only positive entries of the table count
as known; the order of the two arguments of `Max` is left to a parameter.
-/
import LinuxTest.ByteString
import LinuxTest.CommonSubsequence
import LinuxTest.MachineInt

namespace LinuxTest

namespace Sta

protected def max (a b : Int) : Int :=
  if a > b then a else b

/-- `1 + x` of two `int`s. -/
def onePlus (x : Int) : Option Int :=
  if 1 + x < 2 ^ 31 then some (1 + x) else none

def lcsWithRecursion1 (s1 : Bytes) (m : Nat) (s2 : Bytes) (n : Nat) :
    Option Int :=
  match m, n with
  | 0, _ => some 0
  | _ + 1, 0 => some 0
  | m + 1, n + 1 => do
      let a ← s1[m]?
      let b ← s2[n]?
      if a = b then
        let x ← lcsWithRecursion1 s1 m s2 n
        onePlus x
      else
        let x ← lcsWithRecursion1 s1 (m + 1) s2 n
        let y ← lcsWithRecursion1 s1 m s2 (n + 1)
        return Sta.max x y
termination_by m + n

abbrev Table := List (List Int)

namespace Table

/-- `index[i][j]` -/
def entry (index : Table) (i j : Nat) : Option Int := do
  let row ← index[i]?
  row[j]?

def setEntry (index : Table) (i j : Nat) (x : Int) : Option Table := do
  let row ← index[i]?
  if j < row.length then
    some (index.set i (row.set j x))
  else
    none

end Table

/-- The two calls of a mismatch; `order` says which argument comes first. -/
def bothArguments (order : Bool) (first second : Table → Option (Int × Table))
    (index : Table) : Option (Int × Int × Table) :=
  if order then do
    let (x, index) ← first index
    let (y, index) ← second index
    return (x, y, index)
  else do
    let (y, index) ← second index
    let (x, index) ← first index
    return (x, y, index)

def childRecursion (order : Nat → Nat → Bool) (s1 : Bytes) (m : Nat)
    (s2 : Bytes) (n : Nat) (index : Table) : Option (Int × Table) :=
  match m, n with
  | 0, _ => some (0, index)
  | _ + 1, 0 => some (0, index)
  | m + 1, n + 1 => do
      let known ← index.entry m n
      if known > 0 then
        return (known, index)
      else
        let a ← s1[m]?
        let b ← s2[n]?
        if a = b then
          let (x, index) ← childRecursion order s1 m s2 n index
          let x ← onePlus x
          let index ← index.setEntry m n x
          let x ← index.entry m n
          return (x, index)
        else
          let (x, y, index) ← bothArguments (order m n)
            (childRecursion order s1 (m + 1) s2 n)
            (childRecursion order s1 m s2 (n + 1)) index
          let index ← index.setEntry m n (Sta.max x y)
          let x ← index.entry m n
          return (x, index)
termination_by m + n

def lcsWithRecursion2 (order : Nat → Nat → Bool) (s1 : Bytes) (m : Nat)
    (s2 : Bytes) (n : Nat) : Option Int := do
  let index := List.replicate m (List.replicate n (-1))
  let (x, _) ← childRecursion order s1 m s2 n index
  return x

/-! ### The plain recursion -/

variable {s1 s2 : Bytes} {m n : Nat} {x y : Int} {a b : UInt8}

theorem onePlus_of_lt (hx : 1 + x < 2 ^ 31) : onePlus x = some (1 + x) :=
  if_pos hx

theorem max_natCast (p q : Nat) : Sta.max p q = ((max p q : Nat) : Int) := by
  rw [Sta.max]
  split <;> omega

theorem lcs_same (ha : s1[m]? = some a) (hb : s2[n]? = some a) :
    lcsWithRecursion1 s1 (m + 1) s2 (n + 1) =
      (lcsWithRecursion1 s1 m s2 n).bind onePlus := by
  rw [lcsWithRecursion1, ha, hb]
  simp only [Option.bind_eq_bind, Option.bind_some, if_true]

theorem lcs_other (ha : s1[m]? = some a) (hb : s2[n]? = some b) (hne : a ≠ b)
    (hx : lcsWithRecursion1 s1 (m + 1) s2 n = some x)
    (hy : lcsWithRecursion1 s1 m s2 (n + 1) = some y) :
    lcsWithRecursion1 s1 (m + 1) s2 (n + 1) = some (Sta.max x y) := by
  rw [lcsWithRecursion1, ha, hb]
  simp only [Option.bind_eq_bind, Option.bind_some, if_neg hne, hx, hy]
  rfl

/-- The plain recursion finds the greatest length; along both strings, each
case of the last bytes is one of the longest common subsequence. -/
theorem lcsWithRecursion1_longest (hm : m ≤ s1.length) (hn : n ≤ s2.length)
    (hint : m < 2 ^ 31) :
    ∃ k : Nat, lcsWithRecursion1 s1 m s2 n = some (k : Int) ∧
      LongestCommon (s1.take m) (s2.take n) k := by
  induction m generalizing n with
  | zero =>
      refine ⟨0, by rw [lcsWithRecursion1]; rfl, ?_⟩
      rw [List.take_zero]
      exact longestCommon_nil_left _
  | succ m ihm =>
      induction n with
      | zero =>
          refine ⟨0, by rw [lcsWithRecursion1]; rfl, ?_⟩
          rw [List.take_zero]
          exact longestCommon_nil_right _
      | succ n ihn =>
          have ha : s1[m]? = some s1[m] := List.getElem?_eq_getElem hm
          have hb : s2[n]? = some s2[n] := List.getElem?_eq_getElem hn
          rw [List.take_succ_eq_append_getElem hm] at ihn ⊢
          by_cases hab : s1[m] = s2[n]
          · obtain ⟨k, hk, hlongest⟩ :=
              @ihm n (by omega) (by omega) (by omega)
            have hbound := hlongest.le_length
            rw [List.length_take] at hbound
            refine ⟨k + 1, ?_, ?_⟩
            · rw [← hab] at hb
              rw [lcs_same ha hb, hk, Option.bind_some,
                onePlus_of_lt (by omega), Int.add_comm]
              rfl
            · rw [List.take_succ_eq_append_getElem hn, ← hab]
              exact hlongest.concat_same _
          · obtain ⟨p, hp, hleft⟩ := ihn (by omega)
            obtain ⟨q, hq, hright⟩ := @ihm (n + 1) (by omega) hn (by omega)
            rw [List.take_succ_eq_append_getElem hn] at hright ⊢
            refine ⟨max p q, ?_, hleft.concat_other hab hright⟩
            rw [lcs_other ha hb hab hp hq, max_natCast]

/-! ### The recursion with a table -/

namespace Table

variable {index : Table} {i j i' j' : Nat}

theorem setEntry_eq_some {next : Table}
    (h : index.setEntry i j x = some next) :
    ∃ row, index[i]? = some row ∧ j < row.length ∧
      next = index.set i (row.set j x) := by
  rw [setEntry] at h
  simp only [Option.bind_eq_bind, Option.bind_eq_some_iff] at h
  obtain ⟨row, hrow, hset⟩ := h
  split at hset
  · rename_i hj
    exact ⟨row, hrow, hj, (Option.some.inj hset).symm⟩
  · cases hset

theorem entry_setEntry {next : Table} (h : index.setEntry i j x = some next) :
    next.entry i' j' =
      if i' = i ∧ j' = j then some x else index.entry i' j' := by
  obtain ⟨row, hrow, hj, rfl⟩ := setEntry_eq_some h
  obtain ⟨hi, _⟩ := List.getElem?_eq_some_iff.mp hrow
  rw [entry, entry]
  by_cases hi' : i' = i
  · subst hi'
    rw [List.getElem?_set_self hi, hrow, Option.bind_eq_bind, Option.bind_some,
      Option.bind_some]
    by_cases hj' : j' = j
    · rw [if_pos ⟨rfl, hj'⟩, hj', List.getElem?_set_self hj]
    · rw [if_neg fun hboth => hj' hboth.2,
        List.getElem?_set_ne (Ne.symm hj')]
  · rw [if_neg fun hboth => hi' hboth.1, List.getElem?_set_ne (Ne.symm hi')]

end Table

/-- The table has these sizes, and what counts as known in it is right. -/
structure Known (s1 s2 : Bytes) (rows cols : Nat) (index : Table) : Prop where
  rows_eq : index.length = rows
  cols_eq : ∀ row ∈ index, row.length = cols
  known : ∀ i j x, index.entry i j = some x → 0 < x →
    lcsWithRecursion1 s1 (i + 1) s2 (j + 1) = some x

/-- From any such table, a call has the value `x` and leaves such a table. -/
def Computes (s1 s2 : Bytes) (rows cols : Nat)
    (call : Table → Option (Int × Table)) (x : Int) : Prop :=
  ∀ index, Known s1 s2 rows cols index →
    ∃ next, call index = some (x, next) ∧ Known s1 s2 rows cols next

variable {rows cols : Nat} {index : Table}

theorem known_replicate (s1 s2 : Bytes) (rows cols : Nat) :
    Known s1 s2 rows cols
      (List.replicate rows (List.replicate cols (-1))) := by
  refine ⟨List.length_replicate, ?_, ?_⟩
  · intro row hrow
    rw [List.eq_of_mem_replicate hrow, List.length_replicate]
  · intro i j x hentry hpos
    rw [Table.entry] at hentry
    simp only [Option.bind_eq_bind, Option.bind_eq_some_iff] at hentry
    obtain ⟨row, hrow, hx⟩ := hentry
    have hrow' := List.eq_of_mem_replicate (List.mem_of_getElem? hrow)
    rw [hrow'] at hx
    have hx' := List.eq_of_mem_replicate (List.mem_of_getElem? hx)
    omega

theorem Known.entry (h : Known s1 s2 rows cols index) {i j : Nat}
    (hi : i < rows) (hj : j < cols) : ∃ x, index.entry i j = some x := by
  have hrow : i < index.length := h.rows_eq ▸ hi
  have hcol : j < index[i].length :=
    (h.cols_eq _ (List.getElem_mem hrow)).symm ▸ hj
  refine ⟨index[i][j], ?_⟩
  rw [Table.entry, List.getElem?_eq_getElem hrow, Option.bind_eq_bind,
    Option.bind_some, List.getElem?_eq_getElem hcol]

theorem Known.setEntry (h : Known s1 s2 rows cols index) {i j : Nat}
    (hi : i < rows) (hj : j < cols)
    (hx : lcsWithRecursion1 s1 (i + 1) s2 (j + 1) = some x) :
    ∃ next, index.setEntry i j x = some next ∧
      next.entry i j = some x ∧ Known s1 s2 rows cols next := by
  have hrow : i < index.length := h.rows_eq ▸ hi
  have hcol : index[i].length = cols := h.cols_eq _ (List.getElem_mem hrow)
  have hset : index.setEntry i j x =
      some (index.set i (index[i].set j x)) := by
    rw [Table.setEntry, List.getElem?_eq_getElem hrow, Option.bind_eq_bind,
      Option.bind_some, if_pos (hcol.symm ▸ hj)]
  refine ⟨_, hset, ?_, ?_, ?_, ?_⟩
  · rw [Table.entry_setEntry hset, if_pos ⟨rfl, rfl⟩]
  · rw [List.length_set, h.rows_eq]
  · intro row hmem
    rcases List.mem_or_eq_of_mem_set hmem with hold | rfl
    · exact h.cols_eq row hold
    · rw [List.length_set, hcol]
  · intro i' j' value hentry hpos
    rw [Table.entry_setEntry hset] at hentry
    split at hentry
    · rename_i hboth
      rw [hboth.1, hboth.2, hx, hentry]
    · exact h.known i' j' value hentry hpos

theorem bothArguments_computes {first second : Table → Option (Int × Table)}
    (hfirst : Computes s1 s2 rows cols first x)
    (hsecond : Computes s1 s2 rows cols second y) (order : Bool)
    (h : Known s1 s2 rows cols index) :
    ∃ next, bothArguments order first second index = some (x, y, next) ∧
      Known s1 s2 rows cols next := by
  cases order with
  | true =>
      obtain ⟨middle, hx, hmiddle⟩ := hfirst index h
      obtain ⟨next, hy, hnext⟩ := hsecond middle hmiddle
      refine ⟨next, ?_, hnext⟩
      simp only [bothArguments, if_true, hx, hy, Option.bind_eq_bind,
        Option.bind_some]
      rfl
  | false =>
      obtain ⟨middle, hy, hmiddle⟩ := hsecond index h
      obtain ⟨next, hx, hnext⟩ := hfirst middle hmiddle
      refine ⟨next, ?_, hnext⟩
      simp only [bothArguments, Bool.false_eq_true, if_false, hx, hy,
        Option.bind_eq_bind, Option.bind_some]
      rfl

theorem child_known {order : Nat → Nat → Bool}
    (hentry : index.entry m n = some x) (hpos : x > 0) :
    childRecursion order s1 (m + 1) s2 (n + 1) index = some (x, index) := by
  rw [childRecursion, hentry, Option.bind_eq_bind, Option.bind_some,
    if_pos hpos]
  rfl

theorem child_same {order : Nat → Nat → Bool} {known value : Int}
    {called next : Table} (hentry : index.entry m n = some known)
    (hpos : ¬known > 0) (ha : s1[m]? = some a) (hb : s2[n]? = some a)
    (hcall : childRecursion order s1 m s2 n index = some (value, called))
    (hplus : onePlus value = some x) (hset : called.setEntry m n x = some next)
    (hread : next.entry m n = some x) :
    childRecursion order s1 (m + 1) s2 (n + 1) index = some (x, next) := by
  rw [childRecursion]
  simp only [Option.bind_eq_bind, hentry, Option.bind_some, if_neg hpos, ha, hb,
    if_true, hcall, hplus, hset, hread]
  rfl

theorem child_other {order : Nat → Nat → Bool} {known : Int}
    {called next : Table} (hentry : index.entry m n = some known)
    (hpos : ¬known > 0) (ha : s1[m]? = some a) (hb : s2[n]? = some b)
    (hne : a ≠ b)
    (hcalls : bothArguments (order m n)
      (childRecursion order s1 (m + 1) s2 n)
      (childRecursion order s1 m s2 (n + 1)) index = some (x, y, called))
    (hset : called.setEntry m n (Sta.max x y) = some next)
    (hread : next.entry m n = some (Sta.max x y)) :
    childRecursion order s1 (m + 1) s2 (n + 1) index =
      some (Sta.max x y, next) := by
  rw [childRecursion]
  simp only [Option.bind_eq_bind, hentry, Option.bind_some, if_neg hpos, ha, hb,
    if_neg hne, hcalls, hset, hread]
  rfl

/-- Whatever the table knows, the recursion has the value of the plain one. -/
theorem childRecursion_computes (order : Nat → Nat → Bool)
    (hrows : rows ≤ s1.length) (hcols : cols ≤ s2.length)
    (hint : rows < 2 ^ 31) (hm : m ≤ rows) (hn : n ≤ cols) :
    ∃ x, lcsWithRecursion1 s1 m s2 n = some x ∧
      Computes s1 s2 rows cols (childRecursion order s1 m s2 n) x := by
  induction m generalizing n with
  | zero =>
      refine ⟨0, by rw [lcsWithRecursion1], fun index h => ⟨index, ?_, h⟩⟩
      rw [childRecursion]
  | succ m ihm =>
      induction n with
      | zero =>
          refine ⟨0, by rw [lcsWithRecursion1], fun index h => ⟨index, ?_, h⟩⟩
          rw [childRecursion]
      | succ n ihn =>
          have ha : s1[m]? = some s1[m] := List.getElem?_eq_getElem (by omega)
          have hb : s2[n]? = some s2[n] := List.getElem?_eq_getElem (by omega)
          obtain ⟨k, hk, _⟩ := @lcsWithRecursion1_longest s1 s2 (m + 1) (n + 1)
            (by omega) (by omega) (by omega)
          refine ⟨k, hk, fun index h => ?_⟩
          obtain ⟨known, hentry⟩ := h.entry hm hn
          by_cases hpos : known > 0
          · have hknown := h.known m n known hentry hpos
            rw [hk] at hknown
            cases hknown
            exact ⟨index, child_known hentry hpos, h⟩
          · by_cases hab : s1[m] = s2[n]
            · rw [← hab] at hb
              obtain ⟨x, hx, hcall⟩ := ihm (by omega) (n := n) (by omega)
              obtain ⟨called, hvalue, hcalled⟩ := hcall index h
              obtain ⟨next, hset, hread, hnext⟩ := hcalled.setEntry hm hn hk
              have hplus : onePlus x = some (k : Int) := by
                rw [← hk, lcs_same ha hb, hx, Option.bind_some]
              exact ⟨next, child_same hentry hpos ha hb hvalue hplus hset hread,
                hnext⟩
            · obtain ⟨x, hx, hfirst⟩ := ihn (by omega)
              obtain ⟨y, hy, hsecond⟩ := ihm (by omega) (n := n + 1) hn
              obtain ⟨called, hcalls, hcalled⟩ :=
                bothArguments_computes hfirst hsecond (order m n) h
              have hmax := lcs_other ha hb hab hx hy
              rw [hk] at hmax
              rw [Option.some.inj hmax] at hk ⊢
              obtain ⟨next, hset, hread, hnext⟩ := hcalled.setEntry hm hn hk
              exact ⟨next,
                child_other hentry hpos ha hb hab hcalls hset hread, hnext⟩

/-- Both recursions give the greatest length of a common subsequence of the
two beginnings. -/
theorem lcs_recursions_agree (order : Nat → Nat → Bool) (s1 s2 : Bytes)
    {m n : Nat} (hm : m ≤ s1.length) (hn : n ≤ s2.length)
    (hint : m < 2 ^ 31) :
    ∃ k : Nat, lcsWithRecursion1 s1 m s2 n = some (k : Int) ∧
      lcsWithRecursion2 order s1 m s2 n = some (k : Int) ∧
      LongestCommon (s1.take m) (s2.take n) k := by
  obtain ⟨k, hk, hlongest⟩ := lcsWithRecursion1_longest hm hn hint
  obtain ⟨x, hx, hcomputes⟩ := childRecursion_computes order hm hn hint
    (Nat.le_refl m) (Nat.le_refl n)
  rw [hk] at hx
  cases hx
  obtain ⟨next, hchild, _⟩ := hcomputes _ (known_replicate s1 s2 m n)
  refine ⟨k, hk, ?_, hlongest⟩
  rw [lcsWithRecursion2]
  simp only [hchild, Option.bind_eq_bind, Option.bind_some]
  rfl

theorem lcs_recursions_agree_abcb :
    ∃ k : Nat, lcsWithRecursion1 (lit "abcb") 4 (lit "bdcab") 5 =
        some (k : Int) ∧
      lcsWithRecursion2 (fun _ _ => true) (lit "abcb") 4 (lit "bdcab") 5 =
        some (k : Int) ∧
      LongestCommon ((lit "abcb").take 4) ((lit "bdcab").take 5) k :=
  lcs_recursions_agree _ _ _ (by decide) (by decide) (by decide)

end Sta

end LinuxTest
