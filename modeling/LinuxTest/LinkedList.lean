/-
The singly linked list of the structures library, node by node on a heap.  A
call that follows a null pointer has no result.
-/
import LinuxTest.ListSegments
import LinuxTest.Lockstep
import LinuxTest.MachineInt

namespace LinuxTest

namespace Sta

open NodeHeap (Segment start addresses values)

/-- `NODE`. -/
abbrev Node := ListCell Int32

/-- `linkedList`, with the heap its nodes live in. -/
structure LinkedList where
  heap : NodeHeap Node
  header : Option Nat

namespace LinkedList

/-- The heap and the pointer after `new node(x)`. -/
def newNode (heap : NodeHeap Node) (x : Int32) : NodeHeap Node × Option Nat :=
  (heap.alloc ⟨x, none⟩, some heap.fresh)

def init : LinkedList :=
  let (heap, header) := newNode NodeHeap.empty 0
  { heap := heap, header := header }

def isEmpty (l : LinkedList) : Option Bool :=
  if l.header = none then some true
  else do
    let node ← l.heap.deref l.header
    return node.next.isNone

/-- The loop of `find`.  No loop of the class takes more rounds than there are
addresses in use. -/
def findLoop (heap : NodeHeap Node) (x : Int32) :
    Nat → Option Nat → Option (Option Nat)
  | 0, _ => none
  | _ + 1, none => some none
  | fuel + 1, p => do
      let node ← heap.deref p
      if node.value = x then return p
      else findLoop heap x fuel node.next

def find (l : LinkedList) (x : Int32) : Option (Option Nat) := do
  let node ← l.heap.deref l.header
  findLoop l.heap x l.heap.fresh node.next

def insert (l : LinkedList) (x : Int32) (pos : Option Nat) :
    Option (Bool × LinkedList) :=
  if pos = none then some (false, l)
  else do
    let node ← l.heap.deref pos
    let posnext := node.next
    let (heap, added) := newNode l.heap x
    let heap ← heap.assign pos fun node => { node with next := added }
    let node ← heap.deref pos
    let heap ← heap.assign node.next fun node => { node with next := posnext }
    return (true, { l with heap := heap })

/-- The loop of `push`: the last node of those from `p` on. -/
def lastLoop (heap : NodeHeap Node) :
    Nat → Option Nat → Option Nat → Option (Option Nat)
  | 0, _, _ => none
  | _ + 1, prev, none => some prev
  | fuel + 1, _, p => do
      let node ← heap.deref p
      lastLoop heap fuel p node.next

def push (l : LinkedList) (x : Int32) : Option (Bool × LinkedList) := do
  let node ← l.heap.deref l.header
  if node.next = none then
    let (heap, added) := newNode l.heap x
    let heap ← heap.assign l.header fun node => { node with next := added }
    return (true, { l with heap := heap })
  else
    let prev ← lastLoop l.heap l.heap.fresh none node.next
    let (heap, added) := newNode l.heap x
    let heap ← heap.assign prev fun node => { node with next := added }
    return (true, { l with heap := heap })

def deleteLoop (heap : NodeHeap Node) (x : Int32) :
    Nat → Option Nat → Option Nat → Option (Bool × NodeHeap Node)
  | 0, _, _ => none
  | _ + 1, _, none => some (false, heap)
  | fuel + 1, prev, p => do
      let node ← heap.deref p
      if node.value = x then
        let heap ← heap.assign prev fun before =>
          { before with next := node.next }
        let heap ← heap.delete p
        return (true, heap)
      else
        let before ← heap.deref prev
        deleteLoop heap x fuel before.next node.next

def Delete (l : LinkedList) (x : Int32) : Option (Bool × LinkedList) := do
  let node ← l.heap.deref l.header
  if node.next = none then return (false, l)
  else
    let (found, heap) ← deleteLoop l.heap x l.heap.fresh l.header node.next
    return (found, { l with heap := heap })

/-- `p` and the node behind it are followed without a check. -/
def popLoop (heap : NodeHeap Node) :
    Nat → Option Nat → Option (Int32 × NodeHeap Node)
  | 0, _ => none
  | fuel + 1, prev => do
      let node ← heap.deref prev
      let p := node.next
      let node ← heap.deref p
      if node.next = none then
        let heap ← heap.assign prev fun before => { before with next := none }
        let heap ← heap.delete p
        return (node.value, heap)
      else popLoop heap fuel p

def pop (l : LinkedList) : Option (Int32 × LinkedList) := do
  let node ← l.heap.deref l.header
  let (ret, heap) ← popLoop l.heap l.heap.fresh node.next
  return (ret, { l with heap := heap })

/-- An empty list gives `NULL`, which is 0. -/
def dequeue (l : LinkedList) : Option (Int32 × LinkedList) := do
  let node ← l.heap.deref l.header
  let p := node.next
  if p = none then return (0, l)
  else
    let node ← l.heap.deref p
    let heap ← l.heap.delete p
    let heap ← heap.assign l.header fun header =>
      { header with next := node.next }
    return (node.value, { l with heap := heap })

/-- The values that `operator<<` prints. -/
def printLoop (heap : NodeHeap Node) : Nat → Option Nat → Option (List Int32)
  | 0, _ => none
  | _ + 1, none => some []
  | fuel + 1, p => do
      let node ← heap.deref p
      let later ← printLoop heap fuel node.next
      return node.value :: later

def print (l : LinkedList) : Option (List Int32) := do
  let node ← l.heap.deref l.header
  printLoop l.heap l.heap.fresh node.next

def destroyLoop : Nat → NodeHeap Node → Option Nat → Option (NodeHeap Node)
  | 0, _, _ => none
  | _ + 1, heap, none => some heap
  | fuel + 1, heap, p => do
      let node ← heap.deref p
      let heap ← heap.delete p
      destroyLoop fuel heap node.next

/-- `~linkedList`. -/
def destroy (l : LinkedList) : Option (NodeHeap Node) := do
  let node ← l.heap.deref l.header
  let heap ← l.heap.delete l.header
  destroyLoop l.heap.fresh heap node.next

/-- The loop of `linkedList(vec)` from index `i` on; an `int` counts. -/
def pushAll : List Int32 → Nat → LinkedList → Option LinkedList
  | [], _, l => some l
  | x :: rest, i, l => do
      let (_, l) ← l.push x
      pushAll rest (← incr i) l

/-- `linkedList(vec)`. -/
def ofVector (vec : List Int32) : Option LinkedList :=
  pushAll vec 0 init

/-! ### Calls -/

inductive Call where
  | isEmpty
  /-- The position that comes back is kept. -/
  | find (x : Int32)
  | push (x : Int32)
  /-- `insert(x, pos)` at the position that the `k`-th `find` gave, or at
  `NULL` where there was none yet. -/
  | insert (x : Int32) (k : Nat)
  | Delete (x : Int32)
  | pop
  | dequeue
  | print

inductive Answer where
  | bool (b : Bool)
  | int (v : Int32)
  | values (vs : List Int32)
deriving DecidableEq

/-- A list and the positions that `find` has given so far. -/
structure Session where
  list : LinkedList
  kept : List (Option Nat)

def step (s : Session) : Call → Option (Answer × Session)
  | .isEmpty => s.list.isEmpty.map fun b => (.bool b, s)
  | .find x => (s.list.find x).map fun p =>
      (.bool p.isSome, { s with kept := s.kept ++ [p] })
  | .push x => (s.list.push x).map fun r => (.bool r.1, { s with list := r.2 })
  | .insert x k => (s.list.insert x (s.kept.getD k none)).map fun r =>
      (.bool r.1, { s with list := r.2 })
  | .Delete x => (s.list.Delete x).map fun r =>
      (.bool r.1, { s with list := r.2 })
  | .pop => s.list.pop.map fun r => (.int r.1, { s with list := r.2 })
  | .dequeue => s.list.dequeue.map fun r => (.int r.1, { s with list := r.2 })
  | .print => s.list.print.map fun vs => (.values vs, s)

/-- The answers of a list from its construction to its destruction, and the
nodes that are still allocated afterwards. -/
def life (vec : List Int32) (calls : List Call) :
    Option (List Answer × List Nat) := do
  let l ← ofVector vec
  let (given, s) ← answers step ⟨l, []⟩ calls
  let heap ← s.list.destroy
  return (given, heap.live)

/-! ### The list of values -/

/-- The values in order, each with the number of its node, in the order in
which nodes are made; and the node that each `find` met. -/
structure Row where
  items : List (Nat × Int32)
  made : Nat
  met : List (Option Nat)

/-- Put an item behind the node `n`. -/
def putBehind (n : Nat) (item : Nat × Int32) :
    List (Nat × Int32) → List (Nat × Int32)
  | [] => []
  | node :: rest =>
      if node.1 = n then node :: item :: rest
      else node :: putBehind n item rest

/-- The values of a vector, if an `int` can count them; the header was the
first node. -/
def Row.of (vec : List Int32) : Option Row :=
  if vec.length < 2 ^ 31 then
    some ⟨(List.range' 1 vec.length).zip vec, vec.length + 1, []⟩
  else none

/-- What the calls do to the values in order.  `pop` breaks off with fewer than
two values, and `insert` behind a node that has been deleted since. -/
def spec (r : Row) : Call → Option (Answer × Row)
  | .isEmpty => some (.bool r.items.isEmpty, r)
  | .find x =>
      some (.bool ((values r.items).contains x), { r with
        met := r.met ++ [(r.items.find? fun item => item.2 = x).map Prod.fst] })
  | .push x =>
      some (.bool true, { r with
        items := r.items ++ [(r.made, x)]
        made := r.made + 1 })
  | .insert x k =>
      match r.met.getD k none with
      | none => some (.bool false, r)
      | some n =>
          if n ∈ addresses r.items then
            some (.bool true, { r with
              items := putBehind n (r.made, x) r.items
              made := r.made + 1 })
          else none
  | .Delete x =>
      some (.bool ((values r.items).contains x), { r with
        items := r.items.eraseP fun item => item.2 = x })
  | .pop =>
      if 2 ≤ r.items.length then
        some (.int ((values r.items).getLastD 0), { r with
          items := r.items.dropLast })
      else none
  | .dequeue =>
      some (.int ((values r.items).headD 0), { r with items := r.items.tail })
  | .print => some (.values (values r.items), r)

/-- The nodes of a list, the header first. -/
structure Sound (l : LinkedList) (nodes : List (Nat × Int32)) : Prop where
  header : l.header = start none nodes
  nonempty : nodes ≠ []
  linked : l.heap.Segment none nodes
  distinct : (addresses nodes).Nodup
  holds : l.heap.Holds (addresses nodes)

/-- The nodes behind the header are those of the row, and no position was ever
the header. -/
structure Represents (s : Session) (r : Row) : Prop where
  nodes : ∃ hd, s.list.Sound (hd :: r.items) ∧ some hd.1 ∉ s.kept
  made_eq : s.list.heap.fresh = r.made
  kept_eq : s.kept = r.met

variable {l : LinkedList} {heap : NodeHeap Node} {x y v : Int32} {n fuel : Nat}
  {items front back : List (Nat × Int32)} {hd : Nat × Int32}

theorem init_sound : init.Sound [(0, 0)] := by
  refine ⟨rfl, List.cons_ne_nil _ _, ⟨rfl, trivial⟩, ?_, ?_⟩
  · simp
  · exact NodeHeap.holds_empty.alloc _

/-! ### The loops -/

theorem findLoop_eq (hlinked : heap.Segment none items)
    (hfuel : items.length < fuel) (x : Int32) :
    findLoop heap x fuel (start none items) =
      some ((items.find? fun item => item.2 = x).map Prod.fst) := by
  induction items generalizing fuel with
  | nil =>
      cases fuel with
      | zero => cases hfuel
      | succ fuel => rfl
  | cons item rest ih =>
      cases fuel with
      | zero => cases hfuel
      | succ fuel =>
          have hrest := ih hlinked.2 (Nat.lt_of_succ_lt_succ hfuel)
          by_cases hx : item.2 = x
          · simp [findLoop, hlinked.1, hx]
          · simp [findLoop, hlinked.1, hx, hrest]

theorem lastLoop_eq (hlinked : heap.Segment none (front ++ [(n, v)]))
    (hfuel : front.length + 1 < fuel) (prev : Option Nat) :
    lastLoop heap fuel prev (start none (front ++ [(n, v)])) =
      some (some n) := by
  induction front generalizing fuel prev with
  | nil =>
      obtain ⟨fuel, rfl⟩ : ∃ k, fuel = k + 2 :=
        ⟨fuel - 2, by simp only [List.length_nil] at hfuel; omega⟩
      have hcell : heap.cells n = some ⟨v, none⟩ := hlinked.1
      simp [lastLoop, hcell]
  | cons item rest ih =>
      cases fuel with
      | zero => cases hfuel
      | succ fuel =>
          have hrest := ih hlinked.2 (Nat.lt_of_succ_lt_succ hfuel)
          have hcell := hlinked.1
          simp only [List.cons_append, start, lastLoop, NodeHeap.deref_some,
            hcell, Option.bind_eq_bind, Option.bind_some]
          exact hrest _

theorem printLoop_eq (hlinked : heap.Segment none items)
    (hfuel : items.length < fuel) :
    printLoop heap fuel (start none items) = some (values items) := by
  induction items generalizing fuel with
  | nil =>
      cases fuel with
      | zero => cases hfuel
      | succ fuel => rfl
  | cons item rest ih =>
      cases fuel with
      | zero => cases hfuel
      | succ fuel =>
          have hrest := ih hlinked.2 (Nat.lt_of_succ_lt_succ hfuel)
          simp [printLoop, hlinked.1, hrest]

theorem deleteLoop_absent (hlinked : heap.Segment none ((n, v) :: items))
    (hfuel : items.length < fuel) (habsent : x ∉ values items) :
    deleteLoop heap x fuel (some n) (start none items) =
      some (false, heap) := by
  induction items generalizing fuel n v with
  | nil =>
      cases fuel with
      | zero => cases hfuel
      | succ fuel => rfl
  | cons item rest ih =>
      cases fuel with
      | zero => cases hfuel
      | succ fuel =>
          obtain ⟨hbefore, hat, hrest⟩ := hlinked
          rw [NodeHeap.values_cons, List.mem_cons, not_or] at habsent
          have hlater := ih (n := item.1) (v := item.2) ⟨hat, hrest⟩
            (Nat.lt_of_succ_lt_succ hfuel) habsent.2
          simp only [start, deleteLoop, NodeHeap.deref_some, hat, hbefore,
            Option.bind_eq_bind, Option.bind_some, Ne.symm habsent.1, if_false]
          exact hlater

/-- The first node with the value is taken out from behind `b`. -/
theorem deleteLoop_present {a b : Nat} {u w : Int32}
    (hlinked : heap.Segment none ((a, u) :: front ++ (n, x) :: back))
    (hnodup : (addresses ((a, u) :: front ++ (n, x) :: back)).Nodup)
    (hfuel : (front ++ (n, x) :: back).length < fuel)
    (hlast : ((a, u) :: front).getLast? = some (b, w))
    (hfirst : x ∉ values front) :
    deleteLoop heap x fuel (some a) (start none (front ++ (n, x) :: back)) =
      some (true, (heap.change b fun before =>
        { before with next := start none back }).remove n) := by
  induction front generalizing fuel a u with
  | nil =>
      cases hlast
      cases fuel with
      | zero => cases hfuel
      | succ fuel =>
          obtain ⟨hbefore, hat, _⟩ := hlinked
          have hne : n ≠ b := by
            rintro rfl
            simp at hnodup
          have hkept : (heap.change b fun before =>
              { before with next := start none back }).cells n =
                some ⟨x, start none back⟩ :=
            (NodeHeap.change_cells_of_ne hne).trans hat
          simp only [List.nil_append, NodeHeap.start_cons, deleteLoop,
            NodeHeap.deref_some, hat, Option.bind_eq_bind, Option.bind_some,
            if_true, NodeHeap.assign_some hbefore, NodeHeap.delete_some hkept]
          rfl
  | cons item front ih =>
      cases fuel with
      | zero => cases hfuel
      | succ fuel =>
          obtain ⟨hbefore, hrest⟩ := hlinked
          rw [NodeHeap.values_cons, List.mem_cons, not_or] at hfirst
          rw [List.getLast?_cons_cons] at hlast
          have hlater := ih (a := item.1) (u := item.2) hrest
            (List.nodup_cons.mp hnodup).2 (Nat.lt_of_succ_lt_succ hfuel) hlast
            hfirst.2
          have hat := hrest.1
          simp only [List.cons_append, NodeHeap.start_cons] at hbefore ⊢
          simp only [deleteLoop, NodeHeap.deref_some, hat, hbefore,
            Option.bind_eq_bind, Option.bind_some, Ne.symm hfirst.1, if_false]
          exact hlater

/-- The last of at least two nodes is taken out. -/
theorem popLoop_eq {a : Nat} {u : Int32}
    (hlinked : heap.Segment none (front ++ [(a, u), (n, v)]))
    (hne : n ≠ a) (hfuel : front.length < fuel) :
    popLoop heap fuel (start none (front ++ [(a, u), (n, v)])) =
      some (v, (heap.change a fun before =>
        { before with next := none }).remove n) := by
  induction front generalizing fuel with
  | nil =>
      cases fuel with
      | zero => cases hfuel
      | succ fuel =>
          obtain ⟨hbefore, hat, _⟩ := hlinked
          have hkept : (heap.change a fun before =>
              { before with next := none }).cells n = some ⟨v, none⟩ :=
            (NodeHeap.change_cells_of_ne hne).trans hat
          simp only [List.nil_append, NodeHeap.start_cons, NodeHeap.start_nil,
            popLoop, NodeHeap.deref_some] at hat hbefore ⊢
          simp only [hat, hbefore, NodeHeap.deref_some,
            Option.bind_eq_bind, Option.bind_some, if_true,
            NodeHeap.assign_some hbefore, NodeHeap.delete_some hkept]
          rfl
  | cons item front ih =>
      cases fuel with
      | zero => cases hfuel
      | succ fuel =>
          rw [List.cons_append, NodeHeap.segment_cons] at hlinked
          obtain ⟨hcell, hrest⟩ := hlinked
          have hlater := ih hrest (Nat.lt_of_succ_lt_succ hfuel)
          obtain ⟨m, c, hstart, hat, hnext⟩ : ∃ m c,
              start none (front ++ [(a, u), (n, v)]) = some m ∧
                heap.cells m = some c ∧ c.next ≠ none := by
            cases front with
            | nil => exact ⟨a, _, rfl, hrest.1, by simp⟩
            | cons next front =>
                exact ⟨next.1, _, rfl, hrest.1, by cases front <;> simp⟩
          simp only [List.cons_append, NodeHeap.start_cons, popLoop,
            NodeHeap.deref_some, hcell, hstart, hat, Option.bind_eq_bind,
            Option.bind_some, hnext, if_false]
          rw [← hstart]
          exact hlater

/-- There is nothing behind the first node, or no first node. -/
theorem popLoop_broken (hlinked : heap.Segment none items)
    (hshort : items.length < 2) :
    popLoop heap fuel (start none items) = none := by
  cases fuel with
  | zero => rfl
  | succ fuel =>
      match items, hlinked, hshort with
      | [], _, _ => rfl
      | [(n, v)], hlinked, _ =>
          have hat : heap.cells n = some ⟨v, none⟩ := hlinked.1
          simp [popLoop, hat]

theorem destroyLoop_eq (hlinked : heap.Segment none items)
    (hnodup : (addresses items).Nodup) (hholds : heap.Holds (addresses items))
    (hfuel : items.length < fuel) :
    ∃ freed, destroyLoop fuel heap (start none items) = some freed ∧
      freed.Holds [] := by
  induction items generalizing fuel heap with
  | nil =>
      cases fuel with
      | zero => cases hfuel
      | succ fuel => exact ⟨heap, rfl, hholds⟩
  | cons item rest ih =>
      cases fuel with
      | zero => cases hfuel
      | succ fuel =>
          obtain ⟨hcell, hrest⟩ := hlinked
          obtain ⟨hout, hlater⟩ := List.nodup_cons.mp hnodup
          have hkept : (heap.remove item.1).Segment none rest :=
            hrest.frame fun m hm =>
              NodeHeap.remove_cells_of_ne fun heq => hout (heq ▸ hm)
          have hheld : (heap.remove item.1).Holds (addresses rest) :=
            hholds.remove_head hnodup
          obtain ⟨freed, hfreed, hempty⟩ :=
            ih hkept hlater hheld (Nat.lt_of_succ_lt_succ hfuel)
          refine ⟨freed, ?_, hempty⟩
          simp only [NodeHeap.start_cons, destroyLoop, NodeHeap.deref_some,
            hcell, NodeHeap.delete_some hcell, Option.bind_eq_bind,
            Option.bind_some]
          exact hfreed

/-! ### What a call leaves behind -/

theorem Sound.deref_header (hsound : l.Sound (hd :: items)) :
    l.heap.deref l.header = some ⟨hd.2, start none items⟩ := by
  rw [hsound.header]
  exact hsound.linked.1

theorem Sound.length_lt (hsound : l.Sound (hd :: items)) :
    items.length < l.heap.fresh := by
  have hle := hsound.holds.length_le hsound.distinct
  rw [NodeHeap.addresses, List.length_map] at hle
  exact hle

/-- A new node is linked in behind `n`. -/
theorem Sound.putBehind (hsound : l.Sound (front ++ (n, v) :: back))
    {heap : NodeHeap Node}
    (hbefore : heap.cells n = some ⟨v, some l.heap.fresh⟩)
    (hcell : heap.cells l.heap.fresh = some ⟨x, start none back⟩)
    (hothers : ∀ m, m ≠ n → m ≠ l.heap.fresh → heap.cells m = l.heap.cells m)
    (hholds : heap.Holds
      (l.heap.fresh :: addresses (front ++ (n, v) :: back))) :
    Sound { l with heap := heap }
      (front ++ (n, v) :: (l.heap.fresh, x) :: back) where
  header := by
    rw [NodeHeap.start_append, NodeHeap.start_cons, hsound.header,
      NodeHeap.start_append, NodeHeap.start_cons]
  nonempty := by simp
  linked := hsound.linked.insert hsound.distinct
    hsound.holds.fresh_not_mem hbefore hcell hothers
  distinct := by
    have hperm : (addresses
        (front ++ (n, v) :: (l.heap.fresh, x) :: back)).Perm
        (l.heap.fresh :: addresses (front ++ (n, v) :: back)) := by
      have hmiddle : (front ++ [(n, v)] ++ (l.heap.fresh, x) :: back).Perm
          ((l.heap.fresh, x) :: (front ++ [(n, v)] ++ back)) :=
        List.perm_middle
      simpa [addresses] using hmiddle.map Prod.fst
    exact hperm.nodup_iff.mpr
      (List.nodup_cons.mpr ⟨hsound.holds.fresh_not_mem, hsound.distinct⟩)
  holds := hholds.congr fun m => by
    simp only [NodeHeap.addresses_append, NodeHeap.addresses_cons,
      List.mem_append, List.mem_cons]
    tauto

/-- The node behind `b` is taken out and deleted. -/
theorem Sound.takeOut {b : Nat} {w u : Int32}
    (hsound : l.Sound (front ++ (b, w) :: (n, u) :: back)) :
    Sound { l with
        heap := (l.heap.change b fun before =>
          { before with next := start none back }).remove n }
      (front ++ (b, w) :: back) := by
  have hdistinct := hsound.distinct
  have hsplit : front ++ (b, w) :: (n, u) :: back =
      (front ++ [(b, w)]) ++ (n, u) :: back := by simp
  have hlinked := hsound.linked
  obtain ⟨hat, _⟩ := (NodeHeap.segment_append.mp hlinked).2
  have hne : b ≠ n := by
    rintro rfl
    simp [List.nodup_append] at hdistinct
  refine ⟨?_, by simp, hlinked.unlink hdistinct ?_ ?_, ?_, ?_⟩
  · rw [NodeHeap.start_append, NodeHeap.start_cons, hsound.header,
      NodeHeap.start_append, NodeHeap.start_cons]
  · rw [NodeHeap.remove_cells_of_ne hne, NodeHeap.change_cells_self, hat]
    rfl
  · intro m hmb hmn
    rw [NodeHeap.remove_cells_of_ne hmn, NodeHeap.change_cells_of_ne hmb]
  · rw [hsplit, NodeHeap.addresses_append, NodeHeap.addresses_cons,
      List.perm_middle.nodup_iff] at hdistinct
    simpa using (List.nodup_cons.mp hdistinct).2
  · have hholds := hsound.holds.change b fun before =>
      { before with next := start none back }
    rw [hsplit, NodeHeap.addresses_append, NodeHeap.addresses_cons]
      at hholds hdistinct
    simpa using hholds.remove hdistinct

/-! ### The calls -/

theorem isEmpty_eq (hsound : l.Sound (hd :: items)) :
    l.isEmpty = some items.isEmpty := by
  have hheader := hsound.header
  rw [NodeHeap.start_cons] at hheader
  have hderef := hsound.deref_header
  rw [hheader] at hderef
  simp only [isEmpty, hheader, reduceCtorEq, if_false, hderef]
  cases items <;> rfl

theorem find_eq (hsound : l.Sound (hd :: items)) (x : Int32) :
    l.find x =
      some ((items.find? fun item => item.2 = x).map Prod.fst) := by
  simp only [find, hsound.deref_header, Option.bind_eq_bind, Option.bind_some]
  exact findLoop_eq hsound.linked.2 hsound.length_lt x

/-- The assignments of `push` behind the last node. -/
theorem Sound.append (hsound : l.Sound (front ++ [(n, v)])) (x : Int32) :
    ∃ heap, (l.heap.alloc ⟨x, none⟩).assign (some n)
        (fun node => { node with next := some l.heap.fresh }) = some heap ∧
      heap.fresh = l.heap.fresh + 1 ∧
      Sound { l with heap := heap } (front ++ [(n, v), (l.heap.fresh, x)]) := by
  obtain ⟨hat, _⟩ := (NodeHeap.segment_append.mp hsound.linked).2
  have hne := NodeHeap.lt_fresh hat
  have hcell : (l.heap.alloc ⟨x, none⟩).cells n = some ⟨v, none⟩ :=
    (NodeHeap.alloc_cells_of_ne hne.ne).trans hat
  refine ⟨_, NodeHeap.assign_some hcell, rfl,
    hsound.putBehind ?_ ?_ ?_ ?_⟩
  · rw [NodeHeap.change_cells_self, hcell]
    rfl
  · rw [NodeHeap.change_cells_of_ne hne.ne', NodeHeap.alloc_cells_self]
    rfl
  · intro m hmn hmfresh
    rw [NodeHeap.change_cells_of_ne hmn, NodeHeap.alloc_cells_of_ne hmfresh]
  · exact (hsound.holds.alloc _).change _ _

theorem push_eq (hsound : l.Sound (hd :: items)) (x : Int32) :
    ∃ l', l.push x = some (true, l') ∧ l'.heap.fresh = l.heap.fresh + 1 ∧
      l'.Sound (hd :: (items ++ [(l.heap.fresh, x)])) := by
  have hderef := hsound.deref_header
  have hheader := hsound.header
  rw [NodeHeap.start_cons] at hheader
  rcases List.eq_nil_or_concat items with rfl | ⟨front, ⟨n, v⟩, rfl⟩
  · have hwhole : l.Sound ([] ++ [(hd.1, hd.2)]) := hsound
    obtain ⟨heap, hassign, hfresh, hafter⟩ := hwhole.append x
    rw [← hheader] at hassign
    refine ⟨_, ?_, hfresh, hafter⟩
    simp only [push, hderef, NodeHeap.start_nil, Option.bind_eq_bind,
      Option.bind_some, if_true, newNode, hassign]
    rfl
  · rw [List.concat_eq_append] at hsound hderef ⊢
    have hwhole : l.Sound (hd :: front ++ [(n, v)]) := hsound
    obtain ⟨heap, hassign, hfresh, hafter⟩ := hwhole.append x
    have hfuel : front.length + 1 < l.heap.fresh := by
      simpa using hsound.length_lt
    have hlast := lastLoop_eq hsound.linked.2 hfuel none
    have hsome : start none (front ++ [(n, v)]) ≠ none := by
      cases front <;> simp
    refine ⟨_, ?_, hfresh, by simpa using hafter⟩
    simp only [push, hderef, Option.bind_eq_bind, Option.bind_some, hsome,
      if_false, hlast, newNode, hassign]
    rfl

/-- The assignments of `insert` at a node. -/
theorem insert_at (hsound : l.Sound (front ++ (n, v) :: back)) (x : Int32) :
    ∃ heap, l.insert x (some n) = some (true, { l with heap := heap }) ∧
      heap.fresh = l.heap.fresh + 1 ∧
      Sound { l with heap := heap }
        (front ++ (n, v) :: (l.heap.fresh, x) :: back) := by
  obtain ⟨hat, _⟩ := (NodeHeap.segment_append.mp hsound.linked).2
  have hne := NodeHeap.lt_fresh hat
  have hcell : (l.heap.alloc ⟨x, none⟩).cells n =
      some ⟨v, start none back⟩ :=
    (NodeHeap.alloc_cells_of_ne hne.ne).trans hat
  have hlinked : ((l.heap.alloc ⟨x, none⟩).change n fun node =>
      { node with next := some l.heap.fresh }).cells n =
        some ⟨v, some l.heap.fresh⟩ := by
    rw [NodeHeap.change_cells_self, hcell]
    rfl
  have hadded : ((l.heap.alloc ⟨x, none⟩).change n fun node =>
      { node with next := some l.heap.fresh }).cells l.heap.fresh =
        some ⟨x, none⟩ := by
    rw [NodeHeap.change_cells_of_ne hne.ne', NodeHeap.alloc_cells_self]
  refine ⟨((l.heap.alloc ⟨x, none⟩).change n fun node =>
      { node with next := some l.heap.fresh }).change l.heap.fresh fun node =>
        { node with next := start none back }, ?_, rfl,
    hsound.putBehind ?_ ?_ ?_ ?_⟩
  · simp only [insert, reduceCtorEq, if_false, NodeHeap.deref_some, hat,
      newNode, NodeHeap.assign_some hcell, hlinked, NodeHeap.assign_some hadded,
      Option.bind_eq_bind, Option.bind_some]
    rfl
  · rw [NodeHeap.change_cells_of_ne hne.ne, hlinked]
  · rw [NodeHeap.change_cells_self, hadded]
    rfl
  · intro m hmn hmfresh
    rw [NodeHeap.change_cells_of_ne hmfresh, NodeHeap.change_cells_of_ne hmn,
      NodeHeap.alloc_cells_of_ne hmfresh]
  · exact ((hsound.holds.alloc _).change _ _).change _ _

/-- A position whose node has been deleted is followed all the same. -/
theorem insert_dead (hsound : l.Sound (hd :: items))
    (hdead : n ∉ addresses (hd :: items)) (x : Int32) :
    l.insert x (some n) = none := by
  have hgone : l.heap.cells n = none := by
    cases hcell : l.heap.cells n with
    | none => rfl
    | some c => exact absurd ((hsound.holds n).mp ⟨c, hcell⟩) hdead
  simp [insert, hgone]

theorem putBehind_append {item : Nat × Int32} (hout : n ∉ addresses front) :
    putBehind n item (front ++ (n, v) :: back) =
      front ++ (n, v) :: item :: back := by
  induction front with
  | nil => exact if_pos rfl
  | cons node front ih =>
      rw [NodeHeap.addresses_cons, List.mem_cons, not_or] at hout
      rw [List.cons_append, putBehind, if_neg (Ne.symm hout.1), ih hout.2]
      rfl

/-- A node of the list stands at one place. -/
theorem Sound.split (hsound : l.Sound (hd :: items))
    (hn : n ∈ addresses items) :
    ∃ front v back, items = front ++ (n, v) :: back ∧
      n ∉ addresses front := by
  obtain ⟨⟨m, v⟩, hmem, rfl⟩ := List.mem_map.mp hn
  obtain ⟨front, back, rfl⟩ := List.append_of_mem hmem
  refine ⟨front, v, back, rfl, fun hfront => ?_⟩
  have hdistinct : (addresses (front ++ (m, v) :: back)).Nodup :=
    (List.nodup_cons.mp hsound.distinct).2
  rw [NodeHeap.addresses_append, List.nodup_append] at hdistinct
  exact hdistinct.2.2 m hfront m (by simp) rfl

theorem insert_eq (hsound : l.Sound (hd :: items))
    (hn : n ∈ addresses items) (x : Int32) :
    ∃ l', l.insert x (some n) = some (true, l') ∧
      l'.heap.fresh = l.heap.fresh + 1 ∧
      l'.Sound (hd :: putBehind n (l.heap.fresh, x) items) := by
  obtain ⟨front, v, back, rfl, hout⟩ := hsound.split hn
  have hwhole : l.Sound (hd :: front ++ (n, v) :: back) := hsound
  obtain ⟨heap, hinsert, hfresh, hafter⟩ := insert_at hwhole x
  refine ⟨_, hinsert, hfresh, ?_⟩
  rw [putBehind_append hout]
  exact hafter

/-- A value is in no node, or there is a first node it is in. -/
theorem first_or_absent (items : List (Nat × Int32)) (y : Int32) :
    y ∉ values items ∨ ∃ front n back,
      items = front ++ (n, y) :: back ∧ y ∉ values front := by
  induction items with
  | nil => exact Or.inl (List.not_mem_nil)
  | cons item rest ih =>
      by_cases hy : item.2 = y
      · exact Or.inr ⟨[], item.1, rest, by simp [← hy], List.not_mem_nil⟩
      · rcases ih with hout | ⟨front, n, back, rfl, hout⟩
        · exact Or.inl (by simp [Ne.symm hy, hout])
        · exact Or.inr ⟨item :: front, n, back, rfl, by
            simp [Ne.symm hy, hout]⟩

theorem ne_of_not_mem_values (hout : y ∉ values items) :
    ∀ item ∈ items, ¬ (decide (item.2 = y) = true) := by
  intro item hitem heq
  exact hout (List.mem_map.mpr ⟨item, hitem, of_decide_eq_true heq⟩)

theorem Delete_eq (hsound : l.Sound (hd :: items)) (x : Int32) :
    ∃ l', l.Delete x = some ((values items).contains x, l') ∧
      l'.heap.fresh = l.heap.fresh ∧
      l'.Sound (hd :: items.eraseP fun item => item.2 = x) := by
  have hderef := hsound.deref_header
  have hheader := hsound.header
  rw [NodeHeap.start_cons] at hheader
  rcases first_or_absent items x with hout | ⟨front, n, back, rfl, hout⟩
  · have hfalse : (values items).contains x = false := by simpa using hout
    rw [List.eraseP_of_forall_not (ne_of_not_mem_values hout)]
    refine ⟨l, ?_, rfl, hsound⟩
    have hloop := deleteLoop_absent (n := hd.1) (v := hd.2) hsound.linked
      hsound.length_lt hout
    rw [← hheader] at hloop
    rw [hfalse]
    simp only [Delete, hderef, Option.bind_eq_bind, Option.bind_some, hloop]
    split <;> rfl
  · obtain ⟨init, ⟨b, w⟩, hinit⟩ : ∃ init last, hd :: front = init ++ [last] :=
      ⟨_, _, (List.dropLast_append_getLast (List.cons_ne_nil hd front)).symm⟩
    have hloop := deleteLoop_present (a := hd.1) (u := hd.2) (b := b) (w := w)
      hsound.linked hsound.distinct hsound.length_lt
      (by change (hd :: front).getLast? = _; rw [hinit]; simp) hout
    have hshape : hd :: (front ++ (n, x) :: back) =
        init ++ (b, w) :: (n, x) :: back := by
      rw [← List.cons_append, hinit]
      simp
    have hafter := Sound.takeOut (hshape ▸ hsound)
    have hkept : init ++ (b, w) :: back = hd :: (front ++ back) := by
      rw [← List.cons_append, hinit]
      simp
    rw [hkept] at hafter
    have herase : ((front ++ (n, x) :: back).eraseP fun item => item.2 = x) =
        front ++ back := by
      rw [List.eraseP_append_right _ (ne_of_not_mem_values hout),
        List.eraseP_cons_of_pos (by simp)]
    rw [herase]
    refine ⟨_, ?_, ?_, hafter⟩
    · have hsome : start none (front ++ (n, x) :: back) ≠ none := by
        cases front <;> simp
      have htrue : (values (front ++ (n, x) :: back)).contains x = true := by
        simp
      rw [← hheader] at hloop
      rw [htrue]
      simp only [Delete, hderef, Option.bind_eq_bind, Option.bind_some, hsome,
        if_false, hloop]
      rfl
    · rfl

theorem pop_eq (hsound : l.Sound (hd :: items)) (hlong : 2 ≤ items.length) :
    ∃ l', l.pop = some ((values items).getLastD 0, l') ∧
      l'.heap.fresh = l.heap.fresh ∧ l'.Sound (hd :: items.dropLast) := by
  obtain ⟨front, ⟨a, u⟩, ⟨n, v⟩, rfl⟩ : ∃ front before last,
      items = front ++ [before, last] := by
    rcases List.eq_nil_or_concat items with rfl | ⟨items, last, rfl⟩
    · cases hlong
    · rcases List.eq_nil_or_concat items with rfl | ⟨front, before, rfl⟩
      · simp at hlong
      · exact ⟨front, before, last, by simp⟩
  have hne : n ≠ a := by
    rintro rfl
    have hdistinct := hsound.distinct
    simp [List.nodup_append] at hdistinct
  have hfuel : front.length < l.heap.fresh := by
    have hlt := hsound.length_lt
    rw [List.length_append] at hlt
    omega
  have hloop := popLoop_eq hsound.linked.2 hne hfuel
  have hwhole : l.Sound (hd :: front ++ (a, u) :: (n, v) :: []) := hsound
  have hafter := hwhole.takeOut
  have hrest : (front ++ [(a, u), (n, v)]).dropLast = front ++ [(a, u)] := by
    simp [List.dropLast_append_of_ne_nil]
  rw [hrest]
  refine ⟨_, ?_, ?_, hafter⟩
  · simp only [pop, hsound.deref_header, Option.bind_eq_bind,
      Option.bind_some, hloop]
    simp
  · rfl

theorem pop_broken (hsound : l.Sound (hd :: items))
    (hshort : items.length < 2) : l.pop = none := by
  simp only [pop, hsound.deref_header, Option.bind_eq_bind, Option.bind_some]
  rw [popLoop_broken hsound.linked.2 hshort]
  rfl

theorem dequeue_eq (hsound : l.Sound (hd :: items)) :
    ∃ l', l.dequeue = some ((values items).headD 0, l') ∧
      l'.heap.fresh = l.heap.fresh ∧ l'.Sound (hd :: items.tail) := by
  have hderef := hsound.deref_header
  cases items with
  | nil =>
      refine ⟨l, ?_, rfl, hsound⟩
      simp only [dequeue, hderef, Option.bind_eq_bind, Option.bind_some]
      rfl
  | cons item rest =>
      have hat := hsound.linked.2.1
      have hne : hd.1 ≠ item.1 := by
        intro heq
        have hdistinct := hsound.distinct
        simp [heq] at hdistinct
      have hwhole : l.Sound ([] ++ (hd.1, hd.2) :: item :: rest) := hsound
      have hafter := hwhole.takeOut
      rw [← NodeHeap.change_remove hne] at hafter
      have hkept : (l.heap.remove item.1).cells hd.1 =
          some ⟨hd.2, some item.1⟩ :=
        (NodeHeap.remove_cells_of_ne hne).trans hsound.linked.1
      have hassign := NodeHeap.assign_some (f := fun before : Node =>
        { before with next := start none rest }) hkept
      have hheader := hsound.header
      rw [NodeHeap.start_cons] at hheader
      rw [← hheader] at hassign
      refine ⟨_, ?_, ?_, hafter⟩
      · simp only [dequeue, hderef, NodeHeap.start_cons, Option.bind_eq_bind,
          Option.bind_some, reduceCtorEq, if_false, NodeHeap.deref_some, hat,
          NodeHeap.delete_some hat, hassign]
        rfl
      · rfl

theorem print_eq (hsound : l.Sound (hd :: items)) :
    l.print = some (values items) := by
  simp only [print, hsound.deref_header, Option.bind_eq_bind, Option.bind_some]
  exact printLoop_eq hsound.linked.2 hsound.length_lt

/-- Every node is deleted, and deleted once. -/
theorem destroy_eq (hsound : l.Sound (hd :: items)) :
    ∃ heap, l.destroy = some heap ∧ heap.Holds [] := by
  have hheader := hsound.header
  rw [NodeHeap.start_cons] at hheader
  obtain ⟨hout, hdistinct⟩ := List.nodup_cons.mp hsound.distinct
  have hlinked : (l.heap.remove hd.1).Segment none items :=
    hsound.linked.2.frame fun m hm =>
      NodeHeap.remove_cells_of_ne fun heq => hout (heq ▸ hm)
  have hholds : (l.heap.remove hd.1).Holds (addresses items) :=
    hsound.holds.remove_head hsound.distinct
  obtain ⟨freed, hfreed, hempty⟩ :=
    destroyLoop_eq hlinked hdistinct hholds hsound.length_lt
  refine ⟨freed, ?_, hempty⟩
  have hdelete : l.heap.delete l.header = some (l.heap.remove hd.1) := by
    rw [hheader]
    exact NodeHeap.delete_some hsound.linked.1
  simp only [destroy, hsound.deref_header, hdelete, Option.bind_eq_bind,
    Option.bind_some]
  exact hfreed

/-! ### Lives -/

variable {s : Session} {r : Row}

theorem mem_of_getD_eq_some {kept : List (Option Nat)} {k n : Nat}
    (hpos : kept.getD k none = some n) : some n ∈ kept := by
  rw [List.getD_eq_getElem?_getD] at hpos
  cases hat : kept[k]? with
  | none => simp [hat] at hpos
  | some p =>
      rw [hat, Option.getD_some] at hpos
      exact hpos ▸ List.mem_of_getElem? hat

theorem step_agrees (hs : Represents s r) (call : Call) :
    Agree Represents (step s call) (spec r call) := by
  obtain ⟨⟨hd, hsound, hheader⟩, hmade, hkept⟩ := hs
  have hsame : Represents s r := ⟨⟨hd, hsound, hheader⟩, hmade, hkept⟩
  cases call with
  | isEmpty =>
      rw [step, isEmpty_eq hsound]
      exact Agree.answered hsame
  | find x =>
      have hfound : (r.items.find? fun item => item.2 = x).isSome =
          (values r.items).contains x := by
        rw [Bool.eq_iff_iff, List.find?_isSome]
        simp [values]
      rw [step, find_eq hsound, spec, ← hfound, ← hkept, Option.map_some,
        Option.isSome_map]
      refine Agree.answered ⟨⟨hd, hsound, ?_⟩, hmade, rfl⟩
      -- what is found stands behind the header
      rw [List.mem_append, not_or, List.mem_singleton]
      refine ⟨hheader, fun heq => ?_⟩
      obtain ⟨item, hitem, hfirst⟩ := Option.map_eq_some_iff.mp heq.symm
      refine (List.nodup_cons.mp hsound.distinct).1 ?_
      rw [← hfirst]
      exact List.mem_map_of_mem (List.mem_of_find?_eq_some hitem)
  | push x =>
      obtain ⟨l', hpush, hfresh, hafter⟩ := push_eq hsound x
      rw [step, hpush, spec, ← hmade]
      exact Agree.answered ⟨⟨hd, hafter, hheader⟩, hfresh, hkept⟩
  | insert x k =>
      rw [step, spec, ← hkept, ← hmade]
      cases hpos : s.kept.getD k none with
      | none => exact Agree.answered hsame
      | some n =>
          by_cases hn : n ∈ addresses r.items
          · obtain ⟨l', hinsert, hfresh, hafter⟩ := insert_eq hsound hn x
            simp only [hinsert, if_pos hn]
            exact Agree.answered ⟨⟨hd, hafter, hheader⟩, hfresh, rfl⟩
          · have hmem : some n ∈ s.kept := mem_of_getD_eq_some hpos
            have hdead : n ∉ addresses (hd :: r.items) := by
              rw [NodeHeap.addresses_cons, List.mem_cons, not_or]
              exact ⟨fun heq => hheader (heq ▸ hmem), hn⟩
            simp only [insert_dead hsound hdead, if_neg hn]
            exact Agree.broken
  | Delete x =>
      obtain ⟨l', hdelete, hfresh, hafter⟩ := Delete_eq hsound x
      rw [step, hdelete]
      exact Agree.answered ⟨⟨hd, hafter, hheader⟩, hfresh.trans hmade, hkept⟩
  | pop =>
      by_cases hlong : 2 ≤ r.items.length
      · obtain ⟨l', hpop, hfresh, hafter⟩ := pop_eq hsound hlong
        rw [step, hpop, spec, if_pos hlong]
        exact Agree.answered
          ⟨⟨hd, hafter, hheader⟩, hfresh.trans hmade, hkept⟩
      · rw [step, pop_broken hsound (by omega), spec, if_neg hlong]
        exact Agree.broken
  | dequeue =>
      obtain ⟨l', hdequeue, hfresh, hafter⟩ := dequeue_eq hsound
      rw [step, hdequeue]
      exact Agree.answered ⟨⟨hd, hafter, hheader⟩, hfresh.trans hmade, hkept⟩
  | print =>
      rw [step, print_eq hsound]
      exact Agree.answered hsame

/-- The pushes of the constructor number the nodes; the `int` index overflows
behind the last it can count. -/
theorem pushAll_eq (vec : List Int32) {i : Nat} (hsound : l.Sound (hd :: items))
    (hi : i < 2 ^ 31) :
    if i + vec.length < 2 ^ 31 then
      ∃ l', pushAll vec i l = some l' ∧
        l'.heap.fresh = l.heap.fresh + vec.length ∧
        l'.Sound (hd :: (items ++
          (List.range' l.heap.fresh vec.length).zip vec))
    else pushAll vec i l = none := by
  induction vec generalizing l items i with
  | nil =>
      rw [if_pos (by simpa using hi)]
      exact ⟨l, rfl, rfl, by simpa using hsound⟩
  | cons x rest ih =>
      obtain ⟨next, hpush, hfresh, hnext⟩ := push_eq hsound x
      rw [pushAll, hpush, Option.bind_eq_bind, Option.bind_some,
        List.length_cons]
      dsimp only
      by_cases hcount : i + 1 < 2 ^ 31
      · have hrest := ih hnext hcount
        rw [incr_of_lt hcount, Option.bind_eq_bind, Option.bind_some]
        rw [Nat.add_assoc, Nat.add_comm 1] at hrest
        split
        · case isTrue hall =>
            rw [if_pos hall] at hrest
            obtain ⟨l', hpushed, hlast, hafter⟩ := hrest
            refine ⟨l', hpushed, by omega, ?_⟩
            rw [hfresh] at hafter
            simpa [List.range'_succ] using hafter
        · case isFalse hmany =>
            rwa [if_neg hmany] at hrest
      · rw [incr_of_ge (by omega), if_neg (by omega)]
        rfl

theorem ofVector_eq {vec : List Int32} (hcount : vec.length < 2 ^ 31) :
    ∃ l r, ofVector vec = some l ∧ Row.of vec = some r ∧
      Represents ⟨l, []⟩ r := by
  have hpushed := pushAll_eq vec init_sound (Nat.two_pow_pos 31)
  rw [Nat.zero_add, if_pos hcount] at hpushed
  obtain ⟨l, hbuilt, hfresh, hsound⟩ := hpushed
  refine ⟨l, _, hbuilt, if_pos hcount, ⟨(0, 0), hsound, List.not_mem_nil⟩,
    ?_, rfl⟩
  exact hfresh.trans (Nat.add_comm 1 _)

theorem ofVector_broken {vec : List Int32} (hcount : ¬vec.length < 2 ^ 31) :
    ofVector vec = none ∧ Row.of vec = none := by
  have hpushed := pushAll_eq vec init_sound (Nat.two_pow_pos 31)
  rw [Nat.zero_add, if_neg hcount] at hpushed
  exact ⟨hpushed, if_neg hcount⟩

/-- From the construction out of any vector to the destruction, any calls are
answered as the list of values answers them, and no node is deleted twice or
left over; the program breaks off exactly where an `int` cannot count the
vector, `pop` finds fewer than two values, or an `insert` is given the position
of a node that has been deleted since. -/
theorem linkedList_life (vec : List Int32) (calls : List Call) :
    life vec calls =
      (Row.of vec).bind fun r =>
        (answers spec r calls).map fun given => (given.1, []) := by
  by_cases hcount : vec.length < 2 ^ 31
  · obtain ⟨l, r, hbuilt, hrow, hl⟩ := ofVector_eq hcount
    have hagree :=
      answers_agree (fun _ _ call h => step_agrees h call) hl calls
    rw [life, hbuilt, hrow, Option.bind_some]
    rcases hagree.cases with
      ⟨hcode, hspec⟩ | ⟨given, last, r', hcode, hspec, hlast⟩
    · rw [hspec]
      simp [hcode]
    · obtain ⟨⟨hd, hsound, _⟩, _⟩ := hlast
      obtain ⟨heap, hdestroy, hempty⟩ := destroy_eq hsound
      rw [hspec]
      simp [hcode, hdestroy, hempty.live_eq_nil]
  · obtain ⟨hbuilt, hrow⟩ := ofVector_broken hcount
    rw [life, hbuilt, hrow]
    rfl

end LinkedList

end Sta

end LinuxTest
