import GajaeCode.Data.Run

/-! A circular buffer is a double-ended queue of at most its capacity. -/
namespace GajaeCode.Utils

open Data List

variable {T : Type}

/-- The elements and `undefined` are values of one type. -/
structure RingBuffer (T : Type) where
  buf : List T
  head : Nat
  size : Nat
  capacity : Nat

inductive Operation (T : Type) where
  | push (item : T)
  | pop
  | shift
  | unshift (item : T)
  | clear

def slice (start stop : Nat) (items : List T) : List T := (items.drop start).take (stop - start)

namespace RingBuffer

variable (undefined : T)

def create (capacity : Nat) : RingBuffer T := ⟨replicate capacity undefined, 0, 0, capacity⟩

def length (ring : RingBuffer T) : Nat := ring.size

def push (item : T) (ring : RingBuffer T) : T × RingBuffer T :=
  let idx := (ring.head + ring.size) % ring.capacity
  let buf := ring.buf.set idx item
  if ring.size = ring.capacity then
    (ring.buf.getD idx undefined, { ring with buf, head := (ring.head + 1) % ring.capacity })
  else (undefined, { ring with buf, size := ring.size + 1 })

def shift (ring : RingBuffer T) : T × RingBuffer T :=
  if ring.size = 0 then (undefined, ring)
  else
    (ring.buf.getD ring.head undefined,
      { ring with
        buf := ring.buf.set ring.head undefined
        head := (ring.head + 1) % ring.capacity
        size := ring.size - 1 })

def pop (ring : RingBuffer T) : T × RingBuffer T :=
  if ring.size = 0 then (undefined, ring)
  else
    let idx := (ring.head + ring.size - 1) % ring.capacity
    (ring.buf.getD idx undefined, { ring with buf := ring.buf.set idx undefined, size := ring.size - 1 })

def unshift (item : T) (ring : RingBuffer T) : T × RingBuffer T :=
  let head := (ring.head + ring.capacity - 1) % ring.capacity
  (if ring.size = ring.capacity then ring.buf.getD head undefined else undefined,
    { ring with
      buf := ring.buf.set head item
      head
      size := if ring.size < ring.capacity then ring.size + 1 else ring.size })

def clear (ring : RingBuffer T) : RingBuffer T :=
  { ring with buf := ring.buf.map fun _ => undefined, head := 0, size := 0 }

/-- `at`. -/
def elementAt (index : Int) (ring : RingBuffer T) : T :=
  let index := if index < 0 then index + ring.size else index
  if index < 0 ∨ ring.size ≤ index then undefined
  else ring.buf.getD ((ring.head + index.toNat) % ring.capacity) undefined

def iterate (ring : RingBuffer T) : List T :=
  (range ring.size).map fun i => ring.buf.getD ((ring.head + i) % ring.capacity) undefined

def toArray (ring : RingBuffer T) : List T :=
  if ring.head + ring.size ≤ ring.capacity then slice ring.head (ring.head + ring.size) ring.buf
  else slice ring.head ring.capacity ring.buf ++ slice 0 ((ring.head + ring.size) % ring.capacity) ring.buf

def perform (ring : RingBuffer T) : Operation T → T × RingBuffer T
  | .push item => ring.push undefined item
  | .pop => ring.pop undefined
  | .shift => ring.shift undefined
  | .unshift item => ring.unshift undefined item
  | .clear => (undefined, ring.clear undefined)

end RingBuffer

/-- The queue: a full one loses its oldest element to `push` and its newest to `unshift`. -/
def performOnQueue (undefined : T) (capacity : Nat) (queue : List T) : Operation T → T × List T
  | .push item =>
    if queue.length = capacity then (queue.headD undefined, queue.tail ++ [item]) else (undefined, queue ++ [item])
  | .pop => (queue.getLastD undefined, queue.dropLast)
  | .shift => (queue.headD undefined, queue.tail)
  | .unshift item =>
    if queue.length = capacity then (queue.getLastD undefined, item :: queue.dropLast) else (undefined, item :: queue)
  | .clear => (undefined, [])

/-- A negative index counts from the end. -/
def queueAt (undefined : T) (queue : List T) (index : Int) : T :=
  let index := if index < 0 then index + queue.length else index
  if index < 0 then undefined else queue.getD index.toNat undefined

namespace RingBuffer

variable {undefined : T} {ring : RingBuffer T} {buf : List T} {i : Nat}

structure Valid (ring : RingBuffer T) : Prop where
  length : ring.buf.length = ring.capacity
  head : ring.head < ring.capacity
  size : ring.size ≤ ring.capacity

theorem Valid.pos (h : ring.Valid) : 0 < ring.capacity := Nat.zero_lt_of_lt h.head

def contents (ring : RingBuffer T) : List T := (ring.buf.rotate ring.head).take ring.size

/-- The operation keeps the buffer valid and is that of the queue of its contents. -/
def Simulates (undefined : T) (ring : RingBuffer T) (operation : Operation T) : Prop :=
  let after := ring.perform undefined operation
  after.2.Valid ∧ after.2.capacity = ring.capacity ∧
    performOnQueue undefined ring.capacity ring.contents operation = (after.1, after.2.contents)

theorem rotate_set (hi : i < buf.length) (head : Nat) (item : T) :
    (buf.set ((head + i) % buf.length) item).rotate head = (buf.rotate head).set i item := by
  apply ext_getElem?
  intro j
  by_cases hj : j < buf.length
  · have hsame : (head + i) % buf.length = (j + head) % buf.length ↔ i = j := by
      rw [Nat.add_comm j head]
      constructor
      · intro h
        exact (Nat.ModEq.add_left_cancel' head h).eq_of_lt_of_lt hi hj
      · rintro rfl
        rfl
    rw [getElem?_rotate (by simpa), length_set, getElem?_set, getElem?_set, getElem?_rotate hj, length_rotate]
    simp only [hsame, hi, Nat.mod_lt _ (Nat.zero_lt_of_lt hi)]
  · rw [getElem?_eq_none (by simpa using hj), getElem?_eq_none (by simpa using hj)]

theorem getD_rotate (undefined : T) (hi : i < buf.length) (head : Nat) :
    buf.getD ((head + i) % buf.length) undefined = (buf.rotate head).getD i undefined := by
  rw [getD_eq_getElem?_getD, getD_eq_getElem?_getD, getElem?_rotate hi, Nat.add_comm]

variable {first : T} {rest : List T} {head : Nat}

/-- The cell at the head is the first one in the order of the elements. -/
theorem set_head (undefined item : T) (hhead : head < buf.length) (h : buf.rotate head = first :: rest) :
    (buf.set head item).rotate head = item :: rest ∧ buf.getD head undefined = first ∧
      (buf.set head item).rotate ((head + 1) % buf.length) = rest ++ [item] := by
  have hpos := Nat.zero_lt_of_lt hhead
  have hset := rotate_set hpos head item
  have hget := getD_rotate undefined hpos head
  rw [Nat.add_zero, Nat.mod_eq_of_lt hhead, h] at hset hget
  refine ⟨hset, hget, ?_⟩
  have hmod := rotate_mod (buf.set head item) (head + 1)
  rw [length_set] at hmod
  rw [hmod, ← rotate_rotate, hset, set_cons_zero, rotate_cons_succ, rotate_zero]

theorem exists_rotate (h : head < buf.length) :
    ∃ first rest, buf.rotate head = first :: rest ∧ rest.length + 1 = buf.length := by
  have hlength := length_rotate buf head
  cases hcells : buf.rotate head with
  | nil => simp [hcells] at hlength; omega
  | cons first rest => exact ⟨first, rest, rfl, by rw [← hlength, hcells, length_cons]⟩

theorem Valid.length_contents (h : ring.Valid) : ring.contents.length = ring.size := by
  rw [contents, length_take, length_rotate, h.length, min_eq_left h.size]

section

variable {size : Nat} (h : Valid ⟨buf, head, size, buf.length⟩)
include h

theorem simulates_push (item : T) : Simulates undefined ⟨buf, head, size, buf.length⟩ (.push item) := by
  obtain ⟨first, rest, hcells, hrest⟩ := exists_rotate h.head
  obtain ⟨-, hget, hset⟩ := set_head undefined item h.head hcells
  simp only [Simulates, perform, push, performOnQueue, h.length_contents]
  split_ifs with hfull
  · have hidx : (head + size) % buf.length = head := by
      rw [hfull, Nat.add_mod_right, Nat.mod_eq_of_lt h.head]
    refine ⟨⟨length_set, Nat.mod_lt _ h.pos, h.size⟩, rfl, ?_⟩
    simp only [contents, hidx, hget, hset, hcells]
    rw [take_of_length_le (by simp; omega), take_of_length_le (by simp; omega)]
    rfl
  · have hroom : size < buf.length := lt_of_le_of_ne h.size hfull
    refine ⟨⟨length_set, h.head, hroom⟩, rfl, ?_⟩
    simp only [contents, rotate_set hroom]
    rw [take_add_one, take_set_of_le le_rfl, getElem?_set_self (by simpa)]
    rfl

theorem simulates_shift : Simulates undefined ⟨buf, head, size, buf.length⟩ .shift := by
  obtain ⟨first, rest, hcells, hrest⟩ := exists_rotate h.head
  obtain ⟨-, hget, hset⟩ := set_head undefined undefined h.head hcells
  have hsize : size ≤ buf.length := h.size
  simp only [Simulates, perform, shift, performOnQueue]
  cases size with
  | zero => exact ⟨h, rfl, rfl⟩
  | succ size =>
    rw [if_neg size.succ_ne_zero]
    refine ⟨⟨length_set, Nat.mod_lt _ h.pos, Nat.le_of_succ_le hsize⟩, rfl, ?_⟩
    simp only [contents, hget, hset, hcells, Nat.add_sub_cancel]
    rw [take_append_of_le_length (by omega)]
    rfl

theorem simulates_pop : Simulates undefined ⟨buf, head, size, buf.length⟩ .pop := by
  have hsize : size ≤ buf.length := h.size
  simp only [Simulates, perform, pop, performOnQueue]
  cases size with
  | zero => exact ⟨h, rfl, rfl⟩
  | succ size =>
    rw [if_neg size.succ_ne_zero]
    refine ⟨⟨length_set, h.head, Nat.le_of_succ_le hsize⟩, rfl, ?_⟩
    have hlast : size < (buf.rotate head).length := by
      rw [length_rotate]
      exact hsize
    simp only [contents, ← Nat.add_assoc, Nat.add_sub_cancel, rotate_set hsize, getD_rotate _ hsize]
    rw [take_set_of_le le_rfl, take_add_one, getElem?_eq_getElem hlast, getD_eq_getElem _ _ hlast]
    simp

theorem simulates_unshift (item : T) : Simulates undefined ⟨buf, head, size, buf.length⟩ (.unshift item) := by
  have hpos := h.pos
  have hsize : size ≤ buf.length := h.size
  -- the cell in front of the head
  have hfront : (head + buf.length - 1) % buf.length < buf.length := Nat.mod_lt _ hpos
  obtain ⟨last, init, hinit, hlength⟩ := exists_rotate hfront
  obtain ⟨hset, hget, -⟩ := set_head undefined item hfront hinit
  have hcells : buf.rotate head = init ++ [last] := by
    have hnext := rotate_rotate buf ((head + buf.length - 1) % buf.length) 1
    rw [hinit, rotate_cons_succ, rotate_zero, ← rotate_mod buf (_ + 1), Nat.mod_add_mod,
      Nat.sub_add_cancel (by omega), Nat.add_mod_right, rotate_mod] at hnext
    exact hnext.symm
  simp only [Simulates, perform, unshift, performOnQueue, h.length_contents]
  rcases hsize.lt_or_eq with hroom | rfl
  · rw [if_pos hroom, if_neg hroom.ne, if_neg hroom.ne]
    refine ⟨⟨length_set, hfront, hroom⟩, trivial, ?_⟩
    simp only [contents, hcells, hset]
    rw [take_succ_cons, take_append_of_le_length (by omega)]
  · rw [if_neg (lt_irrefl _), if_pos rfl, if_pos rfl]
    refine ⟨⟨length_set, hfront, le_rfl⟩, trivial, ?_⟩
    simp only [contents, hcells, hset, hget]
    rw [take_of_length_le (by simp; omega), take_of_length_le (by simp; omega)]
    simp

end

section

variable (h : ring.Valid)
include h

theorem Valid.simulates (undefined : T) (operation : Operation T) : Simulates undefined ring operation := by
  obtain ⟨buf, head, size, capacity⟩ := ring
  obtain rfl : buf.length = capacity := h.length
  cases operation with
  | push item => exact simulates_push h item
  | pop => exact simulates_pop h
  | shift => exact simulates_shift h
  | unshift item => exact simulates_unshift h item
  | clear => exact ⟨⟨length_map _, h.pos, Nat.zero_le _⟩, rfl, rfl⟩

theorem toArray_eq : ring.toArray = ring.contents := by
  obtain ⟨buf, head, size, capacity⟩ := ring
  obtain rfl : buf.length = capacity := h.length
  have hhead : head < buf.length := h.head
  have hsize : size ≤ buf.length := h.size
  simp only [contents, toArray, slice, rotate_eq_drop_append_take hhead.le, Nat.add_sub_cancel_left]
  split_ifs with hwrap
  · rw [take_append_of_le_length (by rw [length_drop]; omega)]
  · have hmod : (head + size) % buf.length = size - (buf.length - head) := by
      rw [Nat.mod_eq_sub_mod (by omega), Nat.mod_eq_of_lt (by omega)]
      omega
    have hall : ∀ n, buf.length - head ≤ n → (buf.drop head).take n = buf.drop head := fun n hn =>
      take_of_length_le (by rwa [length_drop])
    rw [hmod, take_append, hall _ le_rfl, hall size (by omega), drop_zero, take_take, length_drop, Nat.sub_zero,
      min_eq_left (by omega)]

theorem getD_contents (hi : i < ring.size) :
    ring.buf.getD ((ring.head + i) % ring.capacity) undefined = ring.contents.getD i undefined := by
  rw [← h.length, getD_rotate _ (by rw [h.length]; exact hi.trans_le h.size), contents, getD_eq_getElem?_getD,
    getD_eq_getElem?_getD, getElem?_take_of_lt hi]

theorem iterate_eq : ring.iterate undefined = ring.contents := by
  refine ext_getElem (by simp [iterate, h.length_contents]) ?_
  intro i hi _
  have hi : i < ring.size := by simpa [iterate] using hi
  simp only [iterate, getElem_map, getElem_range, getD_contents h hi]
  exact getD_eq_getElem _ _ _

theorem elementAt_eq (index : Int) : ring.elementAt undefined index = queueAt undefined ring.contents index := by
  simp only [elementAt, queueAt, h.length_contents]
  generalize (if index < 0 then index + (ring.size : Int) else index) = index
  split_ifs with hout hneg
  · rfl
  · exact (getD_eq_default _ _ (by rw [h.length_contents]; omega)).symm
  · omega
  · exact getD_contents h (by omega)

end

end RingBuffer

open RingBuffer

variable (undefined : T) {capacity : Nat}

def afterOperations (capacity : Nat) (operations : List (Operation T)) : RingBuffer T :=
  run (fun ring operation => (ring.perform undefined operation).2) (.create undefined capacity) operations

def queueAfter (capacity : Nat) (operations : List (Operation T)) : List T :=
  run (fun queue operation => (performOnQueue undefined capacity queue operation).2) [] operations

theorem afterOperations_spec (hcapacity : 0 < capacity) (operations : List (Operation T)) :
    (afterOperations undefined capacity operations).Valid ∧
      (afterOperations undefined capacity operations).capacity = capacity ∧
      (afterOperations undefined capacity operations).contents = queueAfter undefined capacity operations := by
  induction operations using reverseRecOn with
  | nil => exact ⟨⟨length_replicate, hcapacity, Nat.zero_le _⟩, rfl, rfl⟩
  | append_singleton operations operation ih =>
    simp only [afterOperations, queueAfter, run_append] at ih ⊢
    obtain ⟨hvalid, hsame, hcontents⟩ := ih
    obtain ⟨hafter, hcapacity', hqueue⟩ := hvalid.simulates undefined operation
    rw [hsame, hcontents] at hqueue
    exact ⟨hafter, hcapacity'.trans hsame, (congrArg Prod.snd hqueue).symm⟩

/-- After any operations the buffer shows the queue, and the next operation returns what the queue loses. -/
theorem ringBuffer_refines_queue (hcapacity : 0 < capacity) (operations : List (Operation T)) :
    let ring := afterOperations undefined capacity operations
    let queue := queueAfter undefined capacity operations
    queue.length ≤ capacity ∧ ring.iterate undefined = queue ∧ ring.toArray = queue ∧ ring.length = queue.length ∧
      (∀ index, ring.elementAt undefined index = queueAt undefined queue index) ∧
      ∀ operation, (ring.perform undefined operation).1 = (performOnQueue undefined capacity queue operation).1 := by
  intro ring queue
  obtain ⟨hvalid, hsame, hcontents⟩ := afterOperations_spec undefined hcapacity operations
  have hlength := hvalid.length_contents
  have hsize := hvalid.size
  rw [hcontents] at hlength
  rw [← hlength, hsame] at hsize
  refine ⟨hsize, (iterate_eq hvalid).trans hcontents, (toArray_eq hvalid).trans hcontents, hlength.symm, ?_, ?_⟩
  · intro index
    rw [elementAt_eq hvalid, hcontents]
  · intro operation
    obtain ⟨-, -, hqueue⟩ := hvalid.simulates undefined operation
    rw [hsame, hcontents] at hqueue
    exact (congrArg Prod.fst hqueue).symm

theorem ringBuffer_refines_queue_two :
    (afterOperations 0 2 [.push 1, .push 2, .push 3, .unshift 4]).toArray = [4, 2] ∧
      ((afterOperations 0 2 [.push 1, .push 2]).perform 0 (.unshift 4)).1 = 2 :=
  ⟨(ringBuffer_refines_queue 0 Nat.two_pos _).2.2.1, (ringBuffer_refines_queue 0 Nat.two_pos _).2.2.2.2.2 _⟩

end GajaeCode.Utils
