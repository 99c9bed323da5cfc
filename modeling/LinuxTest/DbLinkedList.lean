/-
The doubly linked list of the structures library: a ring of nodes on a heap
between `head` and `tail`.  Its first node is there from the start, and a flag
tells whether it holds a value yet.
-/
import LinuxTest.ListSegments
import LinuxTest.Lockstep
import LinuxTest.Rings

namespace LinuxTest

namespace Sta

open NodeHeap (addresses values)

structure DbNode where
  value : Int32
  next : Option Nat
  prev : Option Nat
  flag : Bool

/-- `dbLinkedList`, with the heap its nodes live in. -/
structure DbLinkedList where
  heap : NodeHeap DbNode
  head : Option Nat
  tail : Option Nat

namespace DbLinkedList

def setNext (p : Option Nat) (node : DbNode) : DbNode := { node with next := p }

def setPrev (p : Option Nat) (node : DbNode) : DbNode := { node with prev := p }

/-- The constructor: one node, without a value, that points to itself. -/
def init : Option DbLinkedList := do
  let heap : NodeHeap DbNode := NodeHeap.empty
  let head := some heap.fresh
  let heap := heap.alloc ⟨0, none, none, false⟩
  let heap ← heap.assign head (setNext head)
  let heap ← heap.assign head (setPrev head)
  return { heap := heap, head := head, tail := head }

/-- `head == tail && head->flag == false`. -/
def unset (l : DbLinkedList) : Option Bool :=
  if l.head = l.tail then do
    let node ← l.heap.deref l.head
    return !node.flag
  else some false

def push (l : DbLinkedList) (x : Int32) : Option (Bool × DbLinkedList) := do
  if ← l.unset then
    let heap ← l.heap.assign l.head fun node =>
      { node with value := x, flag := true }
    return (true, { l with heap := heap })
  else
    let added := some l.heap.fresh
    let heap := l.heap.alloc ⟨x, none, none, true⟩
    let heap ← heap.assign l.tail (setNext added)
    let node ← heap.deref l.tail
    let heap ← heap.assign node.next (setPrev l.tail)
    let node ← heap.deref l.tail
    let tail := node.next
    let heap ← heap.assign tail (setNext l.head)
    let heap ← heap.assign l.head (setPrev tail)
    return (true, { heap := heap, head := l.head, tail := tail })

/-- The branches of `Delete` for a node of a longer list. -/
def takeOut (l : DbLinkedList) (p : Option Nat) : Option DbLinkedList := do
  if p = l.head then
    let node ← l.heap.deref p
    let ne := node.next
    let heap ← l.heap.delete p
    let heap ← heap.assign ne (setPrev l.tail)
    let heap ← heap.assign l.tail (setNext ne)
    return { heap := heap, head := ne, tail := l.tail }
  else if p = l.tail then
    let node ← l.heap.deref p
    let pr := node.prev
    let heap ← l.heap.delete p
    let heap ← heap.assign pr (setNext l.head)
    let heap ← heap.assign l.head (setPrev pr)
    return { heap := heap, head := l.head, tail := pr }
  else
    let node ← l.heap.deref p
    let pr := node.prev
    let ne := node.next
    let heap ← l.heap.delete p
    let heap ← heap.assign pr (setNext ne)
    let heap ← heap.assign ne (setPrev pr)
    return { l with heap := heap }

/-- The loop of `Delete`.  It takes no more rounds than there are addresses in
use. -/
def deleteLoop (l : DbLinkedList) (x : Int32) :
    Nat → Option Nat → Option (Bool × DbLinkedList)
  | 0, _ => none
  | fuel + 1, p => do
      let node ← l.heap.deref p
      if node.value = x then
        let l ← l.takeOut p
        return (true, l)
      else if node.next = l.head then return (false, l)
      else deleteLoop l x fuel node.next

/-- `head == tail && head->flag == true && x == head->value`. -/
def only (l : DbLinkedList) (x : Int32) : Option Bool :=
  if l.head = l.tail then do
    let node ← l.heap.deref l.head
    return node.flag && decide (x = node.value)
  else some false

def Delete (l : DbLinkedList) (x : Int32) : Option (Bool × DbLinkedList) := do
  if ← l.unset then return (false, l)
  else if ← l.only x then
    let heap ← l.heap.delete l.head
    return (true, { heap := heap, head := none, tail := none })
  else deleteLoop l x l.heap.fresh l.head

def getHeader (l : DbLinkedList) : Option Int32 := do
  let node ← l.heap.deref l.head
  return node.value

def destroyLoop (tail : Option Nat) :
    Nat → NodeHeap DbNode → Option Nat → Option (NodeHeap DbNode)
  | 0, _, _ => none
  | fuel + 1, heap, p =>
      if p = tail then some heap
      else do
        let node ← heap.deref p
        let heap ← heap.delete p
        destroyLoop tail fuel heap node.next

/-- `~dbLinkedList`. -/
def destroy (l : DbLinkedList) : Option (NodeHeap DbNode) := do
  let heap ← destroyLoop l.tail (l.heap.fresh + 1) l.heap l.head
  heap.delete l.tail

/-! ### Calls -/

inductive Call where
  | push (x : Int32)
  | Delete (x : Int32)
  | getHeader

inductive Answer where
  | bool (b : Bool)
  | int (v : Int32)
deriving DecidableEq

def step (l : DbLinkedList) : Call → Option (Answer × DbLinkedList)
  | .push x => (l.push x).map fun r => (.bool r.1, r.2)
  | .Delete x => (l.Delete x).map fun r => (.bool r.1, r.2)
  | .getHeader => l.getHeader.map fun v => (.int v, l)

/-- The answers of a list from its construction to its destruction, and the
nodes that are still allocated afterwards. -/
def life (calls : List Call) : Option (List Answer × List Nat) := do
  let l ← init
  let (given, l) ← answers step l calls
  let heap ← l.destroy
  return (given, heap.live)

/-! ### The list of values -/

/-- What the calls do to the values in order.  Once `Delete` has taken the last
value out there is no list any more, and every call breaks off. -/
def spec : Option (List Int32) → Call →
    Option (Answer × Option (List Int32))
  | none, _ => none
  | some vs, .push x => some (.bool true, some (vs ++ [x]))
  | some vs, .Delete x =>
      if vs = [x] then some (.bool true, none)
      else some (.bool (vs.contains x), some (vs.erase x))
  | some vs, .getHeader => some (.int (vs.headD 0), some vs)

/-- The pointers of the nodes. -/
def links (heap : NodeHeap DbNode) : Links Nat where
  next n := (heap.cells n).bind DbNode.next
  prev n := (heap.cells n).bind DbNode.prev

/-- The value of a node and its flag. -/
def payload (heap : NodeHeap DbNode) (n : Nat) : Option (Int32 × Bool) :=
  (heap.cells n).map fun node => (node.value, node.flag)

/-- The nodes of a list that holds values, in the order of the ring. -/
structure Sound (l : DbLinkedList) (nodes : List (Nat × Int32)) : Prop where
  head : l.head = (addresses nodes).head?
  tail : l.tail = (addresses nodes).getLast?
  nonempty : nodes ≠ []
  ring : (links l.heap).Ring (addresses nodes)
  data : ∀ item ∈ nodes, payload l.heap item.1 = some (item.2, true)
  distinct : (addresses nodes).Nodup
  holds : l.heap.Holds (addresses nodes)

/-- The list as constructed. -/
def Blank (l : DbLinkedList) (p : Nat) : Prop :=
  l.head = some p ∧ l.tail = some p ∧
    l.heap.cells p = some ⟨0, some p, some p, false⟩ ∧ l.heap.Holds [p]

/-- The nodes hold the values, if there are any. -/
def Represents (l : DbLinkedList) : Option (List Int32) → Prop
  | none => l.head = none ∧ l.tail = none ∧ l.heap.Holds []
  | some [] => ∃ p, l.Blank p
  | some (v :: vs) => ∃ nodes, l.Sound nodes ∧ values nodes = v :: vs

variable {l : DbLinkedList} {heap : NodeHeap DbNode} {x v : Int32}
  {n a b : Nat} {p : Option Nat} {held : List Nat}
  {nodes front back : List (Nat × Int32)}

/-! ### Assignments and pointers -/

theorem links_setNext (hholds : heap.Holds held) (ha : a ∈ held) (b : Nat) :
    links (heap.change a (setNext (some b))) = (links heap).setNext a b := by
  obtain ⟨c, hc⟩ := (hholds a).mpr ha
  simp only [links, Links.setNext, Links.mk.injEq]
  constructor
  · funext m
    by_cases hm : m = a
    · rw [hm, NodeHeap.change_cells_self, hc, Function.update_self]
      rfl
    · rw [NodeHeap.change_cells_of_ne hm, Function.update_of_ne hm]
  · funext m
    by_cases hm : m = a
    · rw [hm, NodeHeap.change_cells_self, hc]
      rfl
    · rw [NodeHeap.change_cells_of_ne hm]

theorem links_setPrev (hholds : heap.Holds held) (ha : a ∈ held) (b : Nat) :
    links (heap.change a (setPrev (some b))) = (links heap).setPrev a b := by
  obtain ⟨c, hc⟩ := (hholds a).mpr ha
  simp only [links, Links.setPrev, Links.mk.injEq]
  constructor
  · funext m
    by_cases hm : m = a
    · rw [hm, NodeHeap.change_cells_self, hc]
      rfl
    · rw [NodeHeap.change_cells_of_ne hm]
  · funext m
    by_cases hm : m = a
    · rw [hm, NodeHeap.change_cells_self, hc, Function.update_self]
      rfl
    · rw [NodeHeap.change_cells_of_ne hm, Function.update_of_ne hm]

theorem payload_change {f : DbNode → DbNode}
    (hf : ∀ node, (f node).value = node.value ∧ (f node).flag = node.flag) :
    payload (heap.change a f) = payload heap := by
  funext m
  by_cases hm : m = a
  · rw [payload, hm, NodeHeap.change_cells_self, payload]
    cases heap.cells a with
    | none => rfl
    | some c => simp [hf c]
  · rw [payload, NodeHeap.change_cells_of_ne hm, payload]

@[simp] theorem payload_setNext (p : Option Nat) :
    payload (heap.change a (setNext p)) = payload heap :=
  payload_change fun _ => ⟨rfl, rfl⟩

@[simp] theorem payload_setPrev (p : Option Nat) :
    payload (heap.change a (setPrev p)) = payload heap :=
  payload_change fun _ => ⟨rfl, rfl⟩

/-- What is read at a node. -/
theorem Sound.cell (hsound : l.Sound nodes) (hn : (n, v) ∈ nodes) :
    ∃ node, l.heap.cells n = some node ∧ node.value = v ∧ node.flag = true ∧
      node.next = (links l.heap).next n ∧
      node.prev = (links l.heap).prev n := by
  have hdata := hsound.data (n, v) hn
  obtain ⟨node, hnode, hpayload⟩ := Option.map_eq_some_iff.mp hdata
  obtain ⟨hvalue, hflag⟩ := Prod.mk.inj hpayload
  exact ⟨node, hnode, hvalue, hflag, by simp [links, hnode],
    by simp [links, hnode]⟩

/-! ### Taking a node out -/

/-- Two nodes are joined, whichever pointer is set first. -/
theorem assign_join (hholds : heap.Holds held) (ha : a ∈ held)
    (hb : b ∈ held) :
    ∃ joined,
      ((heap.assign (some a) (setNext (some b))).bind fun heap =>
        heap.assign (some b) (setPrev (some a))) = some joined ∧
      ((heap.assign (some b) (setPrev (some a))).bind fun heap =>
        heap.assign (some a) (setNext (some b))) = some joined ∧
      links joined = (links heap).join a b ∧
      payload joined = payload heap ∧ joined.Holds held := by
  have hnext := hholds.change a (setNext (some b))
  have hprev := hholds.change b (setPrev (some a))
  refine ⟨(heap.change a (setNext (some b))).change b (setPrev (some a)),
    ?_, ?_, ?_, by simp, hnext.change b _⟩
  · rw [hholds.assign ha, Option.bind_some, hnext.assign hb]
  · rw [hholds.assign hb, Option.bind_some, hprev.assign ha]
    exact congrArg some (NodeHeap.change_comm (f := setPrev (some a))
      (g := setNext (some b)) (fun _ => rfl) heap b a)
  · rw [links_setPrev hnext hb, links_setNext hholds ha]
    rfl

theorem links_remove {m : Nat} (hm : m ≠ n) :
    (links (heap.remove n)).next m = (links heap).next m ∧
      (links (heap.remove n)).prev m = (links heap).prev m := by
  simp only [links, NodeHeap.remove_cells_of_ne hm, and_self]

/-- What is left when a node is deleted and its neighbours are joined. -/
theorem Sound.taken (hsound : l.Sound (front ++ (n, v) :: back))
    (hmore : front ++ back ≠ [])
    (hb : (addresses back ++ addresses front).head? = some b)
    (ha : (addresses back ++ addresses front).getLast? = some a)
    (hlinks : links heap = (links (l.heap.remove n)).join a b)
    (hpayload : payload heap = payload (l.heap.remove n))
    (hholds : heap.Holds (addresses (front ++ back))) :
    Sound {
      heap := heap
      head := (addresses (front ++ back)).head?
      tail := (addresses (front ++ back)).getLast? } (front ++ back) := by
  have hdistinct := hsound.distinct
  have hring := hsound.ring
  rw [NodeHeap.addresses_append, NodeHeap.addresses_cons] at hdistinct hring
  obtain ⟨hout, hkept⟩ : n ∉ addresses (front ++ back) ∧
      (addresses (front ++ back)).Nodup := by
    rw [NodeHeap.addresses_append]
    exact List.nodup_cons.mp (List.perm_middle.nodup_iff.mp hdistinct)
  refine ⟨rfl, rfl, hmore, ?_, ?_, hkept, hholds⟩
  · rw [hlinks, NodeHeap.addresses_append]
    refine (hring.unlink hdistinct hb ha).frame fun m hm => ?_
    rw [← NodeHeap.addresses_append] at hm
    have hne : m ≠ n := fun heq => hout (heq ▸ hm)
    exact Links.join_congr (links_remove hne) a b
  · intro item hitem
    have hne : item.1 ≠ n := by
      intro heq
      exact hout (heq ▸ List.mem_map_of_mem hitem)
    have hdata := hsound.data item (by
      rw [List.mem_append] at hitem
      rw [List.mem_append, List.mem_cons]
      tauto)
    rw [hpayload, ← hdata, payload, NodeHeap.remove_cells_of_ne hne, payload]

/-- The branches of `takeOut` all join the neighbours of the node. -/
theorem takeOut_eq (hsound : l.Sound (front ++ (n, v) :: back))
    (hmore : front ++ back ≠ []) :
    ∃ l', l.takeOut (some n) = some l' ∧ l'.Sound (front ++ back) := by
  have hdistinct := hsound.distinct
  have hring := hsound.ring
  have hholds := hsound.holds
  have hhead := hsound.head
  have htail := hsound.tail
  rw [NodeHeap.addresses_append, NodeHeap.addresses_cons]
    at hdistinct hring hholds hhead htail
  obtain ⟨node, hnode, _, _, hnext, hprev⟩ := hsound.cell
    (List.mem_append_right front List.mem_cons_self)
  have haround : addresses back ++ addresses front ≠ [] := by
    intro hnil
    obtain ⟨hback, hfront⟩ := List.append_eq_nil_iff.mp hnil
    rw [NodeHeap.addresses, List.map_eq_nil_iff] at hback hfront
    exact hmore (by rw [hfront, hback]; rfl)
  obtain ⟨b, hb⟩ : ∃ b, (addresses back ++ addresses front).head? = some b :=
    ⟨_, List.head?_eq_some_head haround⟩
  obtain ⟨a, ha⟩ :
      ∃ a, (addresses back ++ addresses front).getLast? = some a :=
    ⟨_, List.getLast?_eq_some_getLast haround⟩
  obtain ⟨hsucc, hpred⟩ := hring.around hb ha
  rw [hsucc] at hnext
  rw [hpred] at hprev
  have hremoved := hholds.remove hdistinct
  have hain : a ∈ addresses front ++ addresses back :=
    List.perm_append_comm.mem_iff.mp (List.mem_of_getLast? ha)
  have hbin : b ∈ addresses front ++ addresses back :=
    List.perm_append_comm.mem_iff.mp (List.mem_of_head? hb)
  obtain ⟨joined, hforward, hbackward, hlinks, hpayload, hjoined⟩ :=
    assign_join hremoved hain hbin
  rw [← NodeHeap.addresses_append] at hjoined
  refine ⟨_, ?_, hsound.taken hmore hb ha hlinks hpayload hjoined⟩
  have hdelete := NodeHeap.delete_some hnode
  rw [Option.bind_eq_some_iff] at hforward hbackward
  obtain ⟨first, hafter, hsecond⟩ := hforward
  obtain ⟨other, hother, hlast⟩ := hbackward
  rcases front with _ | ⟨item, front⟩
  · -- The node is the head, and its predecessor the tail.
    have hbefore : (addresses back).getLast? = some a := by simpa using ha
    have hend : l.tail = some a := by
      rw [htail]
      simp [List.getLast?_cons, hbefore]
    have hfirst : l.head = some n := hhead
    have hnow : (addresses ([] ++ back)).head? = some b := by simpa using hb
    have hlater : (addresses ([] ++ back)).getLast? = some a := hbefore
    simp only [takeOut, hfirst, hend, if_true, NodeHeap.deref_some, hnode,
      hdelete, hnext, hother, hlast, hnow, hlater, Option.bind_eq_bind,
      Option.bind_some]
    rfl
  · have hnh : some n ≠ l.head := by
      rw [hhead]
      simp only [NodeHeap.addresses_cons, List.cons_append, List.head?_cons,
        ne_eq, Option.some.injEq]
      rintro rfl
      simp at hdistinct
    have hnow : (addresses (item :: front ++ back)).head? = l.head := by
      rw [hhead]
      rfl
    rcases List.eq_nil_or_concat back with rfl | ⟨back, last, rfl⟩
    · -- The node is the tail, and its successor the head.
      have hfirst : l.head = some b := hhead.trans hb
      have hend : l.tail = some n := htail.trans List.getLast?_concat
      have hlater : (addresses (item :: front ++ [])).getLast? = some a := by
        rw [List.append_nil]
        exact ha
      rw [hfirst] at hnh hnow
      simp only [takeOut, hfirst, if_neg hnh, hend, if_true,
        NodeHeap.deref_some, hnode, hdelete, hprev, hnow, hlater, hafter,
        hsecond, Option.bind_eq_bind, Option.bind_some]
      rfl
    · -- The node is neither.
      rw [List.concat_eq_append] at *
      have hne : n ≠ last.1 := by
        rintro rfl
        simp [List.nodup_append] at hdistinct
      have hend : l.tail = some last.1 := by
        rw [htail, NodeHeap.addresses_append, ← List.cons_append,
          ← List.append_assoc]
        exact List.getLast?_concat
      have hlater : (addresses (item :: front ++ (back ++ [last]))).getLast? =
          l.tail := by
        rw [hend, ← List.append_assoc, NodeHeap.addresses_append]
        exact List.getLast?_concat
      have hnt : some n ≠ l.tail := by
        rw [hend]
        simpa using hne
      simp only [takeOut, if_neg hnh, if_neg hnt, NodeHeap.deref_some, hnode,
        hdelete, hnext, hprev, hnow, hlater, hafter, hsecond,
        Option.bind_eq_bind, Option.bind_some]
      rfl

/-! ### The calls -/

variable {fuel : Nat} {rest : List (Nat × Int32)} {vs : List Int32}

theorem head?_ne {before behind : List Nat}
    (hnodup : (before ++ n :: a :: behind).Nodup) :
    (before ++ n :: a :: behind).head? ≠ some a := by
  intro heq
  cases before with
  | nil =>
      cases heq
      simp at hnodup
  | cons first before =>
      cases heq
      simp at hnodup

/-- The round of the loop at the first node of `rest`: nothing before it has the
value. -/
theorem deleteLoop_eq (hsound : l.Sound (front ++ rest)) (hrest : rest ≠ [])
    (hout : x ∉ values front) (hfuel : rest.length ≤ fuel)
    (hmore : values (front ++ rest) ≠ [x]) :
    ∃ l' after, deleteLoop l x fuel (addresses rest).head? =
        some ((values rest).contains x, l') ∧ l'.Sound after ∧
      values after = (values (front ++ rest)).erase x := by
  induction rest generalizing front fuel with
  | nil => exact absurd rfl hrest
  | cons item back ih =>
      cases fuel with
      | zero => cases hfuel
      | succ fuel =>
          obtain ⟨n, v⟩ := item
          obtain ⟨node, hnode, hvalue, _, hnext, _⟩ := hsound.cell
            (List.mem_append_right front List.mem_cons_self)
          have hring := hsound.ring
          have hdistinct := hsound.distinct
          have hhead := hsound.head
          rw [NodeHeap.addresses_append, NodeHeap.addresses_cons]
            at hring hdistinct hhead
          simp only [NodeHeap.addresses_cons, List.head?_cons, deleteLoop,
            NodeHeap.deref_some, hnode, hvalue, Option.bind_eq_bind,
            Option.bind_some]
          by_cases hx : v = x
          · subst hx
            have hlonger : front ++ back ≠ [] := by
              intro hnil
              obtain ⟨rfl, rfl⟩ := List.append_eq_nil_iff.mp hnil
              exact hmore rfl
            obtain ⟨l', htake, hafter⟩ := takeOut_eq hsound hlonger
            refine ⟨l', _, ?_, hafter, ?_⟩
            · rw [if_pos rfl, htake]
              simp
            · rw [NodeHeap.values_append, NodeHeap.values_append,
                List.erase_append_right _ hout]
              exact congrArg _ (List.erase_cons_head _ _).symm
          · rw [if_neg hx]
            cases back with
            | nil =>
                have hround : node.next = l.head := by
                  rw [hnext, hhead]
                  exact Links.Ring.next_last hring
                have habsent : (values [(n, v)]).contains x = false := by
                  simpa using Ne.symm hx
                have hkept : x ∉ values (front ++ [(n, v)]) := by
                  simp [hout, Ne.symm hx]
                refine ⟨l, _, ?_, hsound, (List.erase_of_not_mem hkept).symm⟩
                rw [if_pos hround, habsent]
                rfl
            | cons next back =>
                have hbehind : node.next = some next.1 := by
                  rw [hnext]
                  exact (Links.Ring.neighbours hring).1
                have hhn : node.next ≠ l.head := by
                  rw [hbehind, hhead]
                  exact (head?_ne hdistinct).symm
                have hshape : front ++ (n, v) :: next :: back =
                    (front ++ [(n, v)]) ++ next :: back := by simp
                rw [hshape] at hsound hmore ⊢
                obtain ⟨l', after, hloop, hafter, hvalues⟩ := ih hsound
                  (List.cons_ne_nil _ _) (by simp [hout, Ne.symm hx])
                  (Nat.le_of_succ_le_succ hfuel) hmore
                refine ⟨l', after, ?_, hafter, hvalues⟩
                rw [if_neg hhn, hbehind]
                rw [NodeHeap.values_cons (n, v), List.contains_cons]
                have hother : (x == v) = false := by simpa using Ne.symm hx
                rw [hother, Bool.false_or]
                exact hloop

theorem Blank.deref_head {p : Nat} (hl : l.Blank p) :
    l.heap.deref l.head = some ⟨0, some p, some p, false⟩ := by
  rw [hl.1]
  exact hl.2.2.1

theorem Blank.unset {p : Nat} (hl : l.Blank p) : l.unset = some true := by
  rw [DbLinkedList.unset, if_pos (hl.1.trans hl.2.1.symm), hl.deref_head]
  rfl

/-- The first node of a list that holds values. -/
theorem Sound.first (hsound : l.Sound nodes) :
    ∃ n v back node, nodes = (n, v) :: back ∧ l.head = some n ∧
      l.heap.deref l.head = some node ∧ node.value = v ∧ node.flag = true := by
  obtain ⟨⟨n, v⟩, back, rfl⟩ := List.exists_cons_of_ne_nil hsound.nonempty
  obtain ⟨node, hnode, hvalue, hflag, _, _⟩ := hsound.cell List.mem_cons_self
  have hhead : l.head = some n := hsound.head
  exact ⟨n, v, back, node, rfl, hhead, hhead ▸ hnode, hvalue, hflag⟩

theorem Sound.represents (hsound : l.Sound nodes) :
    l.Represents (some (values nodes)) := by
  obtain ⟨item, back, rfl⟩ := List.exists_cons_of_ne_nil hsound.nonempty
  exact ⟨item :: back, hsound, rfl⟩

theorem Sound.unset (hsound : l.Sound nodes) : l.unset = some false := by
  obtain ⟨n, v, back, node, _, _, hderef, _, hflag⟩ := hsound.first
  rw [DbLinkedList.unset]
  split
  · rw [hderef]
    simp [hflag]
  · rfl

/-- There is one node exactly when head and tail are the same. -/
theorem Sound.head_eq_tail (hsound : l.Sound ((n, v) :: back)) :
    l.head = l.tail ↔ back = [] := by
  rw [hsound.head, hsound.tail]
  constructor
  · intro heq
    rcases List.eq_nil_or_concat back with rfl | ⟨before, last, rfl⟩
    · rfl
    · have hdistinct := hsound.distinct
      rw [List.concat_eq_append, NodeHeap.addresses_cons,
        NodeHeap.addresses_append] at heq hdistinct
      have hlast : (n :: (addresses before ++ addresses [last])).getLast? =
          some last.1 := by
        rw [← List.cons_append]
        exact List.getLast?_concat
      rw [hlast] at heq
      cases heq
      simp at hdistinct
  · rintro rfl
    rfl

theorem Sound.only (hsound : l.Sound nodes) (x : Int32) :
    l.only x = some (decide (values nodes = [x])) := by
  obtain ⟨n, v, back, node, rfl, _, hderef, hvalue, hflag⟩ := hsound.first
  rw [DbLinkedList.only]
  by_cases hback : back = []
  · subst hback
    rw [if_pos (hsound.head_eq_tail.mpr rfl), hderef]
    simp [hvalue, hflag, eq_comm]
  · rw [if_neg (fun heq => hback (hsound.head_eq_tail.mp heq))]
    have hne : values ((n, v) :: back) ≠ [x] := by
      intro heq
      rw [NodeHeap.values_cons, NodeHeap.values] at heq
      exact hback (List.map_eq_nil_iff.mp (List.cons.inj heq).2)
    rw [decide_eq_false hne]

theorem getHeader_eq (hl : l.Represents (some vs)) :
    l.getHeader = some (vs.headD 0) := by
  cases vs with
  | nil =>
      obtain ⟨p, hblank⟩ := hl
      rw [getHeader, hblank.deref_head]
      rfl
  | cons v vs =>
      obtain ⟨nodes, hsound, hvalues⟩ := hl
      obtain ⟨n, u, back, node, rfl, _, hderef, hvalue, _⟩ := hsound.first
      cases hvalues
      rw [getHeader, hderef]
      exact congrArg some hvalue

theorem Delete_eq (hl : l.Represents (some vs)) (x : Int32) :
    ∃ l', l.Delete x = some (vs.contains x, l') ∧
      l'.Represents (if vs = [x] then none else some (vs.erase x)) := by
  cases vs with
  | nil =>
      obtain ⟨p, hblank⟩ := hl
      refine ⟨l, ?_, p, hblank⟩
      simp [Delete, hblank.unset]
  | cons v vs =>
      obtain ⟨nodes, hsound, hvalues⟩ := hl
      rw [← hvalues]
      by_cases hone : values nodes = [x]
      · obtain ⟨n, u, back, node, rfl, hhead, hderef, hvalue, _⟩ := hsound.first
        rw [hhead, NodeHeap.deref_some] at hderef
        have hback : back = [] := by
          rw [NodeHeap.values_cons, NodeHeap.values] at hone
          exact List.map_eq_nil_iff.mp (List.cons.inj hone).2
        subst hback
        refine ⟨⟨l.heap.remove n, none, none⟩, ?_, ?_⟩
        · simp [Delete, hsound.unset, hsound.only, hone, hhead,
            NodeHeap.delete_some hderef]
        · rw [if_pos hone]
          refine ⟨rfl, rfl, ?_⟩
          exact hsound.holds.remove_head hsound.distinct
      · have hwhole : l.Sound ([] ++ nodes) := hsound
        have hfuel : nodes.length ≤ l.heap.fresh := by
          have hle := hsound.holds.length_le hsound.distinct
          rwa [NodeHeap.addresses, List.length_map] at hle
        obtain ⟨l', after, hloop, hafter, herase⟩ :=
          deleteLoop_eq hwhole hsound.nonempty List.not_mem_nil hfuel hone
        refine ⟨l', ?_, ?_⟩
        · rw [← hsound.head] at hloop
          simp [Delete, hsound.unset, hsound.only, hone, hloop]
        · rw [if_neg hone]
          rw [List.nil_append] at herase
          exact herase ▸ hafter.represents

/-- The first value goes into the node that is there. -/
theorem push_blank {p : Nat} (hl : l.Blank p) (x : Int32) :
    ∃ l', l.push x = some (true, l') ∧ l'.Sound [(p, x)] := by
  obtain ⟨hhead, htail, hcell, hholds⟩ := hl
  have hassign := NodeHeap.assign_some (f := fun node : DbNode =>
    { node with value := x, flag := true }) hcell
  refine ⟨{ l with heap := l.heap.change p fun node =>
    { node with value := x, flag := true } }, ?_, hhead, htail, by simp, ?_, ?_,
      by simp, hholds.change p _⟩
  · simp [push, Blank.unset ⟨hhead, htail, hcell, hholds⟩, hhead, hassign]
  · refine List.isChain_cons_cons.mpr ⟨?_, .singleton p⟩
    simp [links, hcell]
  · intro item hitem
    rw [List.mem_singleton] at hitem
    subst hitem
    simp [payload, hcell]

/-- The assignments of `push` behind the node `a`, with `b` at the head. -/
theorem assign_push (hholds : heap.Holds held) (ha : a ∈ held) (hb : b ∈ held)
    (hn : n ∈ held) (hne : a ≠ n) :
    ∃ linked pushed node,
      heap.assign (some a) (setNext (some n)) = some linked ∧
      linked.deref (some a) = some node ∧ node.next = some n ∧
      (∃ back, linked.assign (some n) (setPrev (some a)) = some back ∧
        back.deref (some a) = some node ∧
        ((back.assign (some n) (setNext (some b))).bind fun heap =>
          heap.assign (some b) (setPrev (some n))) = some pushed) ∧
      links pushed = ((links heap).join a n).join n b ∧
      payload pushed = payload heap ∧ pushed.Holds held := by
  obtain ⟨c, _, hc⟩ := hholds.deref ha
  have hlinked := hholds.change a (setNext (some n))
  have hback := hlinked.change n (setPrev (some a))
  obtain ⟨pushed, hpushed, _, hlinks, hpayload, hheld⟩ :=
    assign_join hback hn hb
  have hcell : (heap.change a (setNext (some n))).cells a =
      some (setNext (some n) c) := by
    rw [NodeHeap.change_cells_self, hc]
    rfl
  refine ⟨_, pushed, _, hholds.assign ha _, hcell, rfl,
    ⟨_, hlinked.assign hn _, ?_, hpushed⟩, ?_, ?_, hheld⟩
  · rw [NodeHeap.deref_some, NodeHeap.change_cells_of_ne hne, hcell]
  · rw [hlinks, links_setPrev hlinked hn, links_setNext hholds ha]
    rfl
  · simpa using hpayload

/-- A further value gets a node of its own between the last and the first. -/
theorem push_sound (hsound : l.Sound nodes) (x : Int32) :
    ∃ l', l.push x = some (true, l') ∧
      l'.Sound (nodes ++ [(l.heap.fresh, x)]) := by
  obtain ⟨b, v, back, _, rfl, hhead, _, _, _⟩ := hsound.first
  obtain ⟨a, ha⟩ : ∃ a, (addresses ((b, v) :: back)).getLast? = some a :=
    ⟨_, List.getLast?_eq_some_getLast (List.cons_ne_nil _ _)⟩
  have hnew := hsound.holds.fresh_not_mem
  have hain := List.mem_of_getLast? ha
  have hne : a ≠ l.heap.fresh := fun heq => hnew (heq ▸ hain)
  obtain ⟨linked, pushed, node, hfirst, hat, hnext, ⟨behind, hsecond, hkept,
      hrest⟩, hlinks, hpayload, hheld⟩ :=
    assign_push (hsound.holds.alloc ⟨x, none, none, true⟩)
      (List.mem_cons_of_mem _ hain) (List.mem_cons_of_mem _ List.mem_cons_self)
      List.mem_cons_self hne
  rw [Option.bind_eq_some_iff] at hrest
  obtain ⟨third, hthird, hlast⟩ := hrest
  have hfresh : ∀ m ∈ addresses ((b, v) :: back),
      (l.heap.alloc ⟨x, none, none, true⟩).cells m = l.heap.cells m :=
    fun m hm => NodeHeap.alloc_cells_of_ne fun heq => hnew (heq ▸ hm)
  refine ⟨⟨pushed, l.head, some l.heap.fresh⟩, ?_, ?_, ?_, by simp, ?_, ?_, ?_,
    ?_⟩
  · have hend : l.tail = some a := hsound.tail.trans ha
    simp only [push, hsound.unset, hhead, hend, hfirst, hat, hnext, hsecond,
      hkept, hthird, hlast, Option.bind_eq_bind, Option.bind_some,
      Bool.false_eq_true, if_false]
    rfl
  · exact hhead
  · rw [NodeHeap.addresses_append]
    exact List.getLast?_concat.symm
  · rw [hlinks, NodeHeap.addresses_append]
    refine Links.Ring.push (hsound.ring.frame fun m hm => ?_) hsound.distinct
      hnew ha
    simp only [links, hfresh m hm, and_self]
  · intro item hitem
    rw [hpayload]
    rcases List.mem_append.mp hitem with hold | hadded
    · rw [payload, hfresh item.1 (List.mem_map_of_mem hold)]
      exact hsound.data item hold
    · rw [List.mem_singleton.mp hadded, payload, NodeHeap.alloc_cells_self]
      rfl
  · rw [NodeHeap.addresses_append, List.nodup_append]
    refine ⟨hsound.distinct, by simp, ?_⟩
    intro m hm other hother heq
    have hfreshly : m = l.heap.fresh := heq.trans (List.mem_singleton.mp hother)
    exact hnew (hfreshly ▸ hm)
  · refine hheld.congr fun m => ?_
    rw [NodeHeap.addresses_append, List.mem_append, List.mem_cons, or_comm]
    simp

theorem push_eq (hl : l.Represents (some vs)) (x : Int32) :
    ∃ l', l.push x = some (true, l') ∧ l'.Represents (some (vs ++ [x])) := by
  cases vs with
  | nil =>
      obtain ⟨p, hblank⟩ := hl
      obtain ⟨l', hpush, hafter⟩ := push_blank hblank x
      exact ⟨l', hpush, hafter.represents⟩
  | cons v vs =>
      obtain ⟨nodes, hsound, hvalues⟩ := hl
      obtain ⟨l', hpush, hafter⟩ := push_sound hsound x
      refine ⟨l', hpush, ?_⟩
      have hafter := hafter.represents
      rw [NodeHeap.values_append, hvalues] at hafter
      exact hafter

theorem destroyLoop_eq {p : Nat} (hlinked : (links heap).Linked held)
    (hnodup : held.Nodup) (hholds : heap.Holds held)
    (hlast : held.getLast? = some p) (hfuel : held.length ≤ fuel) :
    ∃ left, destroyLoop (some p) fuel heap held.head? = some left ∧
      left.Holds [p] := by
  induction held generalizing heap fuel with
  | nil => cases hlast
  | cons n held ih =>
      cases fuel with
      | zero => cases hfuel
      | succ fuel =>
          cases held with
          | nil =>
              cases hlast
              exact ⟨heap, by simp [destroyLoop], hholds⟩
          | cons next held =>
              obtain ⟨hpair, hrest⟩ := List.isChain_cons_cons.mp hlinked
              obtain ⟨hout, hdistinct⟩ := List.nodup_cons.mp hnodup
              rw [List.getLast?_cons_cons] at hlast
              have hnp : n ≠ p := by
                rintro rfl
                exact hout (List.mem_of_getLast? hlast)
              obtain ⟨node, hderef, hnode⟩ := hholds.deref List.mem_cons_self
              have hbehind : node.next = some next := by
                simpa [links, hnode] using hpair.1
              have hkept : (links (heap.remove n)).Linked (next :: held) := by
                refine Links.Linked.frame hrest fun m hm => ?_
                have hne : m ≠ n := fun heq => hout (heq ▸ hm)
                exact links_remove hne
              have hheld : (heap.remove n).Holds (next :: held) :=
                hholds.remove_head hnodup
              obtain ⟨left, hloop, hleft⟩ := ih hkept hdistinct hheld hlast
                (Nat.le_of_succ_le_succ hfuel)
              refine ⟨left, ?_, hleft⟩
              rw [List.head?_cons] at hloop
              simp [destroyLoop, hnp, hnode, NodeHeap.delete_some hnode,
                hbehind, hloop]

/-- Every node is deleted, and deleted once. -/
theorem destroy_eq {state : Option (List Int32)} (hl : l.Represents state) :
    ∃ heap, l.destroy = some heap ∧ heap.Holds [] := by
  match state, hl with
  | none, hl =>
      obtain ⟨hhead, htail, hholds⟩ := hl
      exact ⟨l.heap, by simp [destroy, destroyLoop, hhead, htail], hholds⟩
  | some [], hl =>
      obtain ⟨p, hhead, htail, hcell, hholds⟩ := hl
      refine ⟨l.heap.remove p, ?_, hholds.remove_head (by simp)⟩
      simp [destroy, destroyLoop, hhead, htail, NodeHeap.delete_some hcell]
  | some (v :: vs), hl =>
      obtain ⟨nodes, hsound, hvalues⟩ := hl
      obtain ⟨item, back, rfl⟩ := List.exists_cons_of_ne_nil hsound.nonempty
      obtain ⟨p, hp⟩ : ∃ p, (addresses (item :: back)).getLast? = some p :=
        ⟨_, List.getLast?_eq_some_getLast (List.cons_ne_nil _ _)⟩
      have hlinked : (links l.heap).Linked (addresses (item :: back)) :=
        (List.isChain_append.mp hsound.ring).1
      obtain ⟨left, hloop, hleft⟩ := destroyLoop_eq hlinked hsound.distinct
        hsound.holds hp
        (Nat.le_succ_of_le (hsound.holds.length_le hsound.distinct))
      rw [← hp, ← hsound.head, ← hsound.tail] at hloop
      refine ⟨left.remove p, ?_, hleft.remove_head (by simp)⟩
      rw [destroy, hloop, hsound.tail, hp]
      exact hleft.delete (List.mem_singleton_self p)

theorem step_agrees {state : Option (List Int32)} (hl : l.Represents state)
    (call : Call) : Agree Represents (step l call) (spec state call) := by
  cases state with
  | none =>
      obtain ⟨hhead, htail, _⟩ := hl
      cases call <;>
        simp only [step, spec, push, Delete, getHeader, unset, hhead, htail,
          NodeHeap.deref_none, if_true]
      all_goals exact Agree.broken
  | some vs =>
      cases call with
      | push x =>
          obtain ⟨l', hpush, hafter⟩ := push_eq hl x
          rw [step, hpush]
          exact Agree.answered hafter
      | Delete x =>
          obtain ⟨l', hdelete, hafter⟩ := Delete_eq hl x
          rw [step, hdelete, spec]
          split at hafter
          · case isTrue hone =>
              rw [if_pos hone, hone]
              simpa using Agree.answered hafter
          · case isFalse hmore =>
              rw [if_neg hmore]
              exact Agree.answered hafter
      | getHeader =>
          rw [step, getHeader_eq hl]
          exact Agree.answered hl

theorem init_eq : ∃ l, init = some l ∧ l.Represents (some []) := by
  have hfresh : (NodeHeap.empty : NodeHeap DbNode).fresh = 0 := rfl
  have hholds : ((NodeHeap.empty : NodeHeap DbNode).alloc
      ⟨0, none, none, false⟩).Holds [0] := NodeHeap.holds_empty.alloc _
  have hin := List.mem_singleton_self 0
  have hnext := hholds.change 0 (setNext (some 0))
  have hheld := hnext.change 0 (setPrev (some 0))
  refine ⟨⟨_, some 0, some 0⟩, ?_, 0, rfl, rfl, ?_, hheld⟩
  · simp only [init, hfresh, hholds.assign hin, hnext.assign hin,
      Option.bind_eq_bind, Option.bind_some]
    rfl
  · rfl

/-- From the construction to the destruction, any calls are answered as the list
of values answers them, and no node is used after it was deleted, deleted twice
or left over; the program breaks off exactly at a call after the one that
deleted the last value. -/
theorem dbLinkedList_life (calls : List Call) :
    life calls =
      (answers spec (some []) calls).map fun given => (given.1, []) := by
  obtain ⟨l, hbuilt, hl⟩ := init_eq
  have hagree := answers_agree (fun _ _ call h => step_agrees h call) hl calls
  rcases hagree.cases with
    ⟨hcode, hspec⟩ | ⟨given, last, state, hcode, hspec, hlast⟩
  · rw [life, hbuilt, hspec]
    simp [hcode]
  · obtain ⟨heap, hdestroy, hempty⟩ := destroy_eq hlast
    rw [life, hbuilt, hspec]
    simp [hcode, hdestroy, hempty.live_eq_nil]

end DbLinkedList

end Sta

end LinuxTest
