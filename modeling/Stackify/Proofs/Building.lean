import Stackify.Proofs.Success
import Stackify.Ssa.Builder
import Mathlib.Data.List.Nodup
import Mathlib.Data.List.Perm.Basic

/-!
Modules that are built call by call.

Any sequence of calls is allowed: functions are begun, dropped and finished, blocks are appended and
chosen, instructions are made before there is a block. A ledger says what the calls mean without
positions in lists and without a module: which block the next instruction goes to, and which
instruction was put where (`Ledger.note`). The module that is built has distinct numbers and is what
the ledger says (`module_follows_ledger`), as long as no counter wraps: where additions are checked
a build stops there (`State.after?`), and otherwise fewer than 2^32 values and blocks have to be
drawn (`State.drawn`).

The numbers of a function come from a range that no other function draws from (`Fresh`), so what
holds of each function holds of the module (`Accounts.append`).
-/

namespace Stackify.Ssa.Building

open List

/-! ## Calls -/

/-- A way to make an instruction. -/
inductive Making where
  | push (opcode : Opcode) (ty : Ty) (operands : List Operand) (info : Info)
  | binary (opcode : Opcode) (ty : Ty) (left right : Operand)
  | fneg (ty : Ty) (v : Operand)
  | icmp (code : Nat) (left right : Operand)
  | fcmp (code : Nat) (left right : Operand)
  | cast (opcode : Opcode) (v : Operand) (ty : Ty)
  | alloca (allocated : Ty)
  | load (ty : Ty) (address : Operand)
  | store (v address : Operand)
  | gep (sourceElement : Ty) (base : Operand) (indices : List Operand)
  | call (type : FunctionType) (callee : Operand) (args : List Operand)
  | invoke (type : FunctionType) (callee : Operand) (args : List Operand) (normal unwind : BlockId)
  | select (ty : Ty) (condition left right : Operand)
  | vaArg (ty : Ty) (list : Operand)
  | freeze (ty : Ty) (v : Operand)
  | phi (ty : Ty) (incoming : List (Operand × BlockId))
  | br (target : BlockId)
  | condBr (condition : Operand) (yes no : BlockId)
  | switch (v : Operand) (default : BlockId) (cases : List (Operand × BlockId))
  | ret (v : Option Operand)
  | unreachable
  | catchSwitch (handlers : List BlockId) (unwind : Option BlockId)
  | catchPad (within : Operand) (args : List Operand)
  | catchRet (pad : Operand) (target : BlockId)
  | cleanupPad (args : List Operand)
  | cleanupRet (pad : Operand) (unwind : Option BlockId)
  | landingPad
  | resume (v : Operand)

def Making.run (f : FunctionBuilder) : Making → Operand × FunctionBuilder
  | .push opcode ty operands info => f.push opcode ty operands info
  | .binary opcode ty left right => f.binary opcode ty left right
  | .fneg ty v => f.fneg ty v
  | .icmp code left right => f.icmp code left right
  | .fcmp code left right => f.fcmp code left right
  | .cast opcode v ty => f.cast opcode v ty
  | .alloca allocated => f.alloca allocated
  | .load ty address => f.load ty address
  | .store v address => f.store v address
  | .gep sourceElement base indices => f.gep sourceElement base indices
  | .call type callee args => f.call type callee args
  | .invoke type callee args normal unwind => f.invoke type callee args normal unwind
  | .select ty condition left right => f.select ty condition left right
  | .vaArg ty list => f.vaArg ty list
  | .freeze ty v => f.freeze ty v
  | .phi ty incoming => f.phi ty incoming
  | .br target => f.br target
  | .condBr condition yes no => f.condBr condition yes no
  | .switch v default cases => f.switch v default cases
  | .ret v => f.ret v
  | .unreachable => f.unreachable
  | .catchSwitch handlers unwind => f.catchSwitch handlers unwind
  | .catchPad within args => f.catchPad within args
  | .catchRet pad target => f.catchRet pad target
  | .cleanupPad args => f.cleanupPad args
  | .cleanupRet pad unwind => f.cleanupRet pad unwind
  | .landingPad => f.landingPad
  | .resume v => f.resume v

/-- What is asked of a function under construction. -/
inductive Request where
  | addParamAttribute (i : Nat) (a : Attribute)
  | addAttribute (a : Attribute)
  | setReadable (name : String)
  | setPersonality (name : String)
  | appendBlock (name : String)
  | positionAt (id : BlockId)
  | make (k : Making)
  | addIncoming (phi v : Operand) (block : BlockId)

def Request.run (f : FunctionBuilder) : Request → FunctionBuilder
  | .addParamAttribute i a => f.addParamAttribute i a
  | .addAttribute a => f.addAttribute a
  | .setReadable name => f.setReadable name
  | .setPersonality name => f.setPersonality name
  | .appendBlock name => (f.appendBlock name).2
  | .positionAt id => f.positionAt id
  | .make k => (k.run f).2
  | .addIncoming phi v block => f.addIncoming phi v block

inductive Call where
  | addStruct (name : String) (fields : List Ty) (packed : Bool)
  | addGlobal (name : String) (ty : Ty) (initializer : Option (List UInt8))
  | declare (name : String) (type : FunctionType)
  | function (name : String) (type : FunctionType)
  | request (r : Request)
  | finish

/-- A module under construction, between two functions or inside one. -/
inductive State where
  | between (b : Builder)
  | inside (f : FunctionBuilder)

namespace State

def start (name : String) : State := .between { module := { name } }

def builder : State → Builder
  | .between b => b
  | .inside f => f.owner

/-- Between functions there is none to ask. -/
def ask : State → Request → State
  | .between b, _ => .between b
  | .inside f, r => .inside (r.run f)

def finish : State → State
  | .between b => .between b
  | .inside f => .between f.finish.2

/-- What is asked of the module drops the function that is open. -/
def call (s : State) : Call → State
  | .addStruct name fields packed => .between (s.builder.addStruct name fields packed).2
  | .addGlobal name ty initializer => .between (s.builder.addGlobal name ty initializer).2
  | .declare name type => .between (s.builder.declare name type).2
  | .function name type => .inside (s.builder.function name type)
  | .request r => s.ask r
  | .finish => s.finish

def after (s : State) (calls : List Call) : State := calls.foldl call s

end State

/-! ## Counters -/

/-- How many numbers were drawn. -/
structure Counts where
  values : Nat := 0
  blocks : Nat := 0

def Counts.add (x y : Counts) : Counts := ⟨x.values + y.values, x.blocks + y.blocks⟩

/-- No counter has passed its last number. -/
def Counts.Fit (x : Counts) : Prop := x.values < UInt32.size ∧ x.blocks < UInt32.size

instance (x : Counts) : Decidable x.Fit := inferInstanceAs (Decidable (_ ∧ _))

theorem Counts.add_assoc (x y z : Counts) : (x.add y).add z = x.add (y.add z) :=
  congrArg₂ Counts.mk (Nat.add_assoc ..) (Nat.add_assoc ..)

def Counts.ofBuilder (b : Builder) : Counts := ⟨b.nextValue.toNat, b.nextBlock.toNat⟩

def Request.draws (f : FunctionBuilder) : Request → Counts
  | .appendBlock _ => { blocks := 1 }
  | .make _ => { values := 1, blocks := f.current.isNone.toNat }
  | _ => {}

namespace State

/-- The numbers that a call draws. -/
def draws : State → Call → Counts
  | _, .declare _ type | _, .function _ type => { values := type.params.length }
  | .inside f, .request r => r.draws f
  | _, _ => {}

/-- A call in a build with overflow checks, which stops where a counter passes its last number. -/
def call? (s : State) (c : Call) : Option State :=
  if ((Counts.ofBuilder s.builder).add (s.draws c)).Fit then some (s.call c) else none

def after? (s : State) (calls : List Call) : Option State := calls.foldlM call? s

end State

/-! ## Ledgers -/

/-- An instruction that was made. -/
structure Entry where
  /-- What its making answered. -/
  value : Operand
  making : Making
  /-- The block that was chosen then. -/
  block : BlockId
  /-- The edges that were added since. -/
  edges : List (Operand × BlockId) := []

structure Ledger where
  /-- The block that the next instruction goes to, if there is one. -/
  target : Option BlockId := none
  /-- The instructions of the function that is open, in the order in which they were made. -/
  draft : List Entry := []
  /-- The instructions of the functions that were finished. -/
  kept : List Entry := []

def Entry.addEdge (phi v : Operand) (block : BlockId) (e : Entry) : Entry :=
  if e.value = phi then { e with edges := e.edges ++ [(v, block)] } else e

namespace Ledger

/-- What a request to the function that is open adds to the ledger. -/
def ask (l : Ledger) (f : FunctionBuilder) : Request → Ledger
  | .appendBlock name => { l with target := l.target.or (some (f.appendBlock name).1) }
  | .positionAt id => if id ∈ f.function.blocks.map (·.id) then { l with target := some id } else l
  | .make k =>
    let block := l.target.getD (f.appendBlock "entry").1
    { l with target := some block, draft :=
        l.draft ++ [{ value := (k.run f).1, making := k, block }] }
  | .addIncoming phi v block => { l with draft := l.draft.map (Entry.addEdge phi v block) }
  | .addParamAttribute _ _ | .addAttribute _ | .setReadable _ | .setPersonality _ => l

/-- What a call adds to the ledger. -/
def note (l : Ledger) (s : State) : Call → Ledger
  | .request r =>
    match s with
    | .between _ => l
    | .inside f => l.ask f r
  | .finish => { kept := l.kept ++ l.draft }
  | .addStruct _ _ _ | .addGlobal _ _ _ | .declare _ _ | .function _ _ => { kept := l.kept }

/-- The ledger after a sequence of calls. -/
def through (l : Ledger) : State → List Call → Ledger
  | _, [] => l
  | s, c :: calls => (l.note s c).through (s.call c) calls

end Ledger

/-! ## Numbers -/

/-- Distinct numbers from a range. -/
structure Fresh (ids : List Nat) (lo hi : Nat) : Prop where
  le : lo ≤ hi
  nodup : ids.Nodup
  mem : ∀ n ∈ ids, lo ≤ n ∧ n < hi

namespace Fresh

variable {ids ids' : List Nat} {lo mid hi : Nat}

theorem nil (h : lo ≤ hi) : Fresh [] lo hi := ⟨h, .nil, by simp⟩

theorem range (lo n : Nat) : Fresh (range' lo n) lo (lo + n) := by
  refine ⟨Nat.le_add_right _ _, nodup_range', fun k hk => ?_⟩
  simpa using hk

theorem append (h : Fresh ids lo mid) (h' : Fresh ids' mid hi) : Fresh (ids ++ ids') lo hi := by
  have hlo := h.le
  have hhi := h'.le
  refine ⟨by omega, nodup_append.mpr ⟨h.nodup, h'.nodup, fun n hn k hk => ?_⟩, fun n hn => ?_⟩
  · have := h.mem n hn
    have := h'.mem k hk
    omega
  · rcases mem_append.mp hn with hn | hn
    · have := h.mem n hn
      omega
    · have := h'.mem n hn
      omega

/-- The next number of the range is new. -/
theorem snoc (h : Fresh ids lo hi) : Fresh (ids ++ [hi]) lo (hi + 1) := h.append (range hi 1)

theorem perm (h : Fresh ids lo hi) (hp : ids.Perm ids') : Fresh ids' lo hi :=
  ⟨h.le, hp.nodup_iff.mp h.nodup, fun n hn => h.mem n (hp.mem_iff.mpr hn)⟩

end Fresh

/-- The numbers of parameters and of the instructions of blocks. -/
def valueIds (params : List Param) (blocks : List Block) : List ValueId :=
  params.map (·.id) ++ (blocks.flatMap (·.instructions)).map (·.id)

theorem valueIds_append (params params' : List Param) (blocks blocks' : List Block) :
    (valueIds params blocks ++ valueIds params' blocks').Perm
    (valueIds (params ++ params') (blocks ++ blocks')) := by
  simp only [valueIds, map_append, flatMap_append, append_assoc]
  refine Perm.append_left _ ?_
  simp only [← append_assoc]
  exact Perm.append_right _ perm_append_comm

theorem valueIds_put (params : List Param) (before later : List Block) (b : Block)
    (i : Instruction) : (valueIds params (before ++ b :: later) ++ [i.id]).Perm
      (valueIds params (before ++ { b with instructions := b.instructions ++ [i] } :: later)) := by
  simp only [valueIds, flatMap_append, flatMap_cons, map_append, append_assoc]
  refine .append_left _ (.append_left _ (.append_left _ ?_))
  exact perm_append_comm

/-- What has distinct images differs from all the rest. -/
theorem ne_of_nodup_map {α β : Type} {g : α → β} {before later : List α} {a : α}
    (h : ((before ++ a :: later).map g).Nodup) : ∀ c ∈ before ++ later, g c ≠ g a := by
  rw [map_append, map_cons, nodup_middle, ← map_append, nodup_cons] at h
  intro c hc heq
  exact h.1 (heq ▸ List.mem_map_of_mem hc)

/-! ## Parts of a module and their entries -/

/-- An instruction has the edges of a list, in their order. -/
def HasEdges (i : Instruction) (edges : List (Operand × BlockId)) : Prop :=
  ∃ blocks, i.info = .phi blocks ∧ i.operands.length = blocks.length ∧ i.operands.zip blocks = edges

/-- An instruction is the one that an entry tells of. -/
def Entry.Describes (e : Entry) (i : Instruction) : Prop :=
  e.value = .value i.id ∧ ∀ ty incoming, e.making = .phi ty incoming →
    HasEdges i (incoming ++ e.edges)

/-- The instructions of blocks are those of a ledger's entries, and the numbers come from ranges. -/
structure Accounts (entries : List Entry) (params : List Param) (blocks : List Block)
    (x y : Counts) : Prop where
  values : Fresh (valueIds params blocks) x.values y.values
  blockIds : Fresh (blocks.map (·.id)) x.blocks y.blocks
  there : ∀ e ∈ entries, e.block ∈ blocks.map (·.id)
  holds :
    ∀ b ∈ blocks, Forall₂ Entry.Describes (entries.filter (·.block = b.id)) b.instructions

namespace Accounts

variable {entries entries' : List Entry} {params params' : List Param} {blocks blocks' : List Block}
  {x y z : Counts}

theorem empty (hvalues : x.values ≤ y.values) (hblocks : x.blocks ≤ y.blocks) :
    Accounts [] [] [] x y :=
  ⟨.nil hvalues, .nil hblocks, by simp, by simp⟩

/-- No entry is about a block that is outside the range. -/
theorem filter_eq_nil (h : Accounts entries params blocks x y) {id : Nat}
    (hid : id < x.blocks ∨ y.blocks ≤ id) : entries.filter (·.block = id) = [] := by
  refine filter_eq_nil_iff.mpr fun e he heq => ?_
  have hmem := h.blockIds.mem e.block (h.there e he)
  rw [of_decide_eq_true heq] at hmem
  omega

theorem append (h : Accounts entries params blocks x y)
    (h' : Accounts entries' params' blocks' y z) :
    Accounts (entries ++ entries') (params ++ params') (blocks ++ blocks') x z := by
  refine ⟨(h.values.append h'.values).perm (valueIds_append ..), ?_, ?_, ?_⟩
  · rw [map_append]
    exact h.blockIds.append h'.blockIds
  · intro e he
    rw [map_append, mem_append]
    exact (mem_append.mp he).imp (h.there e) (h'.there e)
  · intro b hb
    rw [filter_append]
    rcases mem_append.mp hb with hb | hb
    · have := h.blockIds.mem b.id (List.mem_map_of_mem hb)
      rw [h'.filter_eq_nil (.inl this.2), append_nil]
      exact h.holds b hb
    · have := h'.blockIds.mem b.id (List.mem_map_of_mem hb)
      rw [h.filter_eq_nil (.inr this.1), nil_append]
      exact h'.holds b hb

section
variable (h : Accounts entries params blocks x y)
include h

theorem mono (hvalues : y.values ≤ z.values) (hblocks : y.blocks ≤ z.blocks) :
    Accounts entries params blocks x z := by
  simpa using h.append (empty hvalues hblocks)

theorem of_params (hp : params'.map (·.id) = params.map (·.id)) :
    Accounts entries params' blocks x y := by
  refine ⟨?_, h.blockIds, h.there, h.holds⟩
  rw [valueIds, hp]
  exact h.values

/-- A new block is empty. -/
theorem appendBlock (name : Option String) :
    Accounts entries params (blocks ++ [{ id := y.blocks, name }]) x
      { y with blocks := y.blocks + 1 } := by
  refine ⟨?_, ?_, ?_, ?_⟩
  · simpa [valueIds] using h.values
  · rw [map_append]
    exact h.blockIds.snoc
  · intro e he
    rw [map_append]
    exact mem_append_left _ (h.there e he)
  · intro b hb
    rcases mem_append.mp hb with hb | hb
    · exact h.holds b hb
    · cases mem_singleton.mp hb
      rw [h.filter_eq_nil (.inr (Nat.le_refl _))]
      exact .nil

end

/-- A new instruction goes to the end of its block, and its entry to the end of the ledger. -/
theorem put {before later : List Block} {b : Block}
    (h : Accounts entries params (before ++ b :: later) x y) {e : Entry} {i : Instruction}
    (he : e.Describes i) (hblock : e.block = b.id) (hi : i.id = y.values) :
    Accounts (entries ++ [e]) params
      (before ++ { b with instructions := b.instructions ++ [i] } :: later) x
      { y with values := y.values + 1 } := by
  have hids : (before ++ { b with instructions := b.instructions ++ [i] } :: later).map (·.id)
      = (before ++ b :: later).map (·.id) := by simp
  refine ⟨?_, hids ▸ h.blockIds, ?_, ?_⟩
  · refine h.values.snoc.perm ?_
    rw [← hi]
    exact valueIds_put ..
  · intro e' he'
    rw [hids]
    rcases mem_append.mp he' with he' | he'
    · exact h.there e' he'
    · cases mem_singleton.mp he'
      rw [hblock]
      simp
  · intro c hc
    rw [filter_append]
    by_cases hbc : c = { b with instructions := b.instructions ++ [i] }
    · subst hbc
      have hone : [e].filter (·.block = b.id) = [e] := by simp [hblock]
      rw [hone]
      exact rel_append (h.holds b (by simp)) (.cons he .nil)
    · have hc : c ∈ before ++ later := by simpa [hbc] using hc
      have hne : e.block ≠ c.id :=
        fun heq => ne_of_nodup_map h.blockIds.nodup c hc (heq.symm.trans hblock)
      have hnone : [e].filter (·.block = c.id) = [] := by simp [hne]
      rw [hnone, append_nil]
      exact h.holds c (by rcases mem_append.mp hc with hc | hc <;> simp [hc])

/-- Every entry tells of an instruction in its block. -/
theorem exists_described (h : Accounts entries params blocks x y) {e : Entry} (he : e ∈ entries) :
    ∃ b ∈ blocks, b.id = e.block ∧ ∃ i ∈ b.instructions, e.Describes i := by
  obtain ⟨b, hb, hid⟩ := List.mem_map.mp (h.there e he)
  refine ⟨b, hb, hid, ?_⟩
  have he : e ∈ entries.filter (·.block = b.id) := mem_filter.mpr ⟨he, by simp [hid]⟩
  obtain ⟨k, hk⟩ := mem_iff_getElem?.mp he
  obtain ⟨i, hi, hei⟩ := forall₂_some_left (h.holds b hb) hk
  exact ⟨i, mem_of_getElem? hi, hei⟩

end Accounts

/-! ## Edges -/

/-- A phi gets one more edge. -/
def withEdge (v : Operand) (block : BlockId) (i : Instruction) : Instruction :=
  match i.info with
  | .phi incoming => { i with operands := i.operands ++ [v], info := .phi (incoming ++ [block]) }
  | _ => i

theorem withEdge_id (v : Operand) (block : BlockId) (i : Instruction) :
    (withEdge v block i).id = i.id := by
  unfold withEdge
  split <;> rfl

variable {i : Instruction} {is : List Instruction}

theorem HasEdges.withEdge {edges : List (Operand × BlockId)} (h : HasEdges i edges) (v : Operand)
    (block : BlockId) : HasEdges (withEdge v block i) (edges ++ [(v, block)]) := by
  obtain ⟨blocks, hinfo, hlength, rfl⟩ := h
  refine ⟨blocks ++ [block], ?_, ?_, ?_⟩
  · simp [Building.withEdge, hinfo]
  · simp [Building.withEdge, hinfo, hlength]
  · simp [Building.withEdge, hinfo, zip_append hlength]

/-- Changes the instructions with a number. -/
def change (id : ValueId) (g : Instruction → Instruction) (i : Instruction) : Instruction :=
  if i.id = id then g i else i

def changeIn (id : ValueId) (g : Instruction → Instruction) (b : Block) : Block :=
  { b with instructions := b.instructions.map (change id g) }

variable {id : ValueId} {g : Instruction → Instruction}

theorem map_change_eq_self (h : ∀ i ∈ is, i.id ≠ id) : is.map (change id g) = is :=
  (map_congr_left fun i hi => if_neg (h i hi)).trans (List.map_id is)

theorem modify_eq_map_change (h : (is.map (·.id)).Nodup) {k : Nat}
    (hk : is.findIdx? (fun i => i.id = id) = some k) : is.modify k g = is.map (change id g) := by
  obtain ⟨hlt, hid, -⟩ := findIdx?_eq_some_iff_getElem.mp hk
  obtain ⟨before, i, later, rfl, rfl, hmodify⟩ := exists_of_modify g hlt
  obtain rfl : i.id = id := by simpa using hid
  have hothers := ne_of_nodup_map h
  rw [hmodify, map_append, map_cons, map_change_eq_self fun j hj =>
    hothers j (mem_append_left _ hj), map_change_eq_self fun j hj =>
      hothers j (mem_append_right _ hj), change, if_pos rfl]

theorem changeIn_eq_self {b : Block} (h : ∀ i ∈ b.instructions, i.id ≠ id) :
    changeIn id g b = b := by
  rw [changeIn, map_change_eq_self h]

/-- Where numbers are distinct, the first instruction with a number is the only one. -/
theorem modifyInstruction_eq_map {blocks : List Block}
    (h : ((blocks.flatMap (·.instructions)).map (·.id)).Nodup) :
    FunctionBuilder.modifyInstruction id g blocks = blocks.map (changeIn id g) := by
  induction blocks with
  | nil => rfl
  | cons b rest ih =>
    rw [flatMap_cons, map_append, nodup_append] at h
    obtain ⟨hb, hrest, hapart⟩ := h
    rw [FunctionBuilder.modifyInstruction, map_cons]
    split
    · next k hk =>
      obtain ⟨hlt, hid, -⟩ := findIdx?_eq_some_iff_getElem.mp hk
      have hid : b.instructions[k].id = id := by simpa using hid
      have hothers : rest.map (changeIn id g) = rest := by
        refine (map_congr_left fun c hc => ?_).trans (List.map_id rest)
        refine changeIn_eq_self fun i hi heq => ?_
        refine hapart id ?_ id ?_ rfl
        · rw [← hid]
          exact List.mem_map_of_mem (getElem_mem hlt)
        · rw [← heq]
          exact List.mem_map_of_mem (mem_flatMap_of_mem hc hi)
      rw [hothers, modify_eq_map_change hb hk, changeIn]
    · next hnone =>
      rw [ih hrest, changeIn_eq_self]
      simpa using hnone

theorem Entry.Describes.addEdge {e : Entry} (h : e.Describes i) (id : ValueId) (v : Operand)
    (block : BlockId) :
    (e.addEdge (.value id) v block).Describes (change id (withEdge v block) i) := by
  obtain ⟨hvalue, hedges⟩ := h
  by_cases hid : i.id = id
  · rw [Entry.addEdge, change, if_pos (by rw [hvalue, hid]), if_pos hid]
    refine ⟨?_, fun ty incoming hphi => ?_⟩
    · rw [withEdge_id]
      exact hvalue
    · rw [← append_assoc]
      exact (hedges ty incoming hphi).withEdge v block
  · rw [Entry.addEdge, change, if_neg, if_neg hid]
    · exact ⟨hvalue, hedges⟩
    · rw [hvalue]
      simpa using hid

theorem Entry.block_addEdge (phi v : Operand) (block : BlockId) (e : Entry) :
    (e.addEdge phi v block).block = e.block := by
  rw [addEdge]
  split <;> rfl

theorem change_id (id : ValueId) (v : Operand) (block : BlockId) (i : Instruction) :
    (change id (withEdge v block) i).id = i.id := by
  rw [change]
  split
  · exact withEdge_id v block i
  · rfl

namespace Accounts

variable {entries : List Entry} {params : List Param} {blocks : List Block} {x y : Counts}

theorem addEdge (h : Accounts entries params blocks x y) (id : ValueId) (v : Operand)
    (block : BlockId) : Accounts (entries.map (Entry.addEdge (.value id) v block)) params
    (blocks.map (changeIn id (withEdge v block))) x y := by
  have hids : (blocks.map (changeIn id (withEdge v block))).map (·.id) = blocks.map (·.id) := by
    rw [List.map_map]
    rfl
  refine ⟨?_, hids ▸ h.blockIds, ?_, ?_⟩
  · have hvalues : valueIds params (blocks.map (changeIn id (withEdge v block))) = valueIds params
        blocks := by
      simp only [valueIds, map_flatMap, flatMap_map, changeIn, List.map_map, Function.comp_def,
        change_id]
    rw [hvalues]
    exact h.values
  · intro e' he'
    obtain ⟨e, he, rfl⟩ := List.mem_map.mp he'
    rw [hids, Entry.block_addEdge]
    exact h.there e he
  · intro b' hb'
    obtain ⟨b, hb, rfl⟩ := List.mem_map.mp hb'
    simp only [List.filter_map, Function.comp_def, Entry.block_addEdge]
    refine forall₂_map_left_iff.mpr (forall₂_map_right_iff.mpr ?_)
    exact (h.holds b hb).imp fun e i hei => hei.addEdge id v block

end Accounts

/-! ## A function under construction -/

/-- The block that instructions go to. -/
def Targets (f : FunctionBuilder) : Option BlockId → Prop
  | none => f.current = none
  | some id => ∃ k b, f.current = some k ∧ f.function.blocks[k]? = some b ∧ b.id = id

/-- Positions stay good as long as blocks stay where they are. -/
theorem Targets.of_blocks {f f' : FunctionBuilder} {target : Option BlockId} (h : Targets f target)
    (hcurrent : f'.current = f.current)
    (hblocks : ∀ (k : Nat) (b : Block), f.function.blocks[k]? = some b →
      ∃ b' : Block, f'.function.blocks[k]? = some b' ∧ b'.id = b.id) :
    Targets f' target := by
  cases target with
  | none => exact hcurrent.trans h
  | some id =>
    obtain ⟨k, b, hk, hb, rfl⟩ := h
    obtain ⟨b', hb', hid⟩ := hblocks k b hb
    exact ⟨k, b', hcurrent.trans hk, hb', hid⟩

/-- A ledger tells of the function that is open. -/
structure Drafts (l : Ledger) (f : FunctionBuilder) (x y : Counts) : Prop where
  accounts : Accounts l.draft f.function.params f.function.blocks x y
  targets : Targets f l.target

theorem toNat_succ {n : UInt32} (h : n.toNat + 1 < UInt32.size) : (n + 1).toNat = n.toNat + 1 := by
  rw [UInt32.toNat_add]
  exact Nat.mod_eq_of_lt h

theorem newParams_spec {tys : List Ty} (b : Builder)
    (h : b.nextValue.toNat + tys.length < UInt32.size) :
    (b.newParams tys).1.map (·.id) = range' b.nextValue.toNat tys.length ∧
      (b.newParams tys).2.module = b.module ∧ (b.newParams tys).2.nextBlock = b.nextBlock ∧
      (b.newParams tys).2.nextValue.toNat = b.nextValue.toNat + tys.length := by
  induction tys generalizing b with
  | nil => exact ⟨rfl, rfl, rfl, rfl⟩
  | cons ty rest ih =>
    rw [length_cons] at h
    have hsucc : b.freshValue.2.nextValue.toNat = b.nextValue.toNat + 1 := toNat_succ (by omega)
    obtain ⟨hids, hmodule, hblock, hvalue⟩ := ih b.freshValue.2 (by omega)
    rw [hsucc] at hids hvalue
    exact ⟨congrArg (b.nextValue.toNat :: ·) hids, hmodule,
      hblock, by rw [length_cons, ← Nat.add_assoc, Nat.add_right_comm]; exact hvalue⟩

/-- The function with a block to put instructions into. -/
def ready (f : FunctionBuilder) : FunctionBuilder :=
  if f.current.isNone then (f.appendBlock "entry").2 else f

/-- An instruction is put into the block that was chosen. -/
def put (f : FunctionBuilder) (i : Instruction) : FunctionBuilder :=
  { f with
    owner := f.owner.freshValue.2
    function.blocks :=
      f.function.blocks.modify (f.current.getD 0) fun b =>
        { b with instructions := b.instructions ++ [i] } }

theorem push_eq (f : FunctionBuilder) (opcode : Opcode) (ty : Ty) (operands : List Operand)
    (info : Info) : f.push opcode ty operands info =
      (.value f.owner.nextValue.toNat,
        put (ready f) { id := f.owner.nextValue.toNat, opcode, ty, operands, info }) := by
  obtain ⟨owner, function, current⟩ := f
  cases current with
  | none => rfl
  | some k => rfl

/-- However an instruction is made, it has the next number and is put into the block that was
chosen. -/
theorem run_eq (f : FunctionBuilder) (k : Making) :
    ∃ i, k.run f = (.value f.owner.nextValue.toNat, put (ready f) i) ∧
      i.id = f.owner.nextValue.toNat ∧ ∀ ty incoming, k = .phi ty incoming →
        HasEdges i incoming := by
  cases k with
  | phi ty incoming =>
    refine ⟨_, push_eq .., rfl, fun ty' incoming' heq => ?_⟩
    cases heq
    refine ⟨incoming.map (·.2), rfl, by simp, ?_⟩
    exact (zip_of_prod rfl rfl).symm
  | _ =>
    refine ⟨_, push_eq .., rfl, fun ty incoming heq => ?_⟩
    cases heq

namespace Drafts

variable {l : Ledger} {f : FunctionBuilder} {x y : Counts}

theorem begin (b : Builder) (name : String) (type : FunctionType) (kept : List Entry)
    (hfit : b.nextValue.toNat + type.params.length < UInt32.size) :
    Drafts { kept } (b.function name type) (.ofBuilder b)
      ((Counts.ofBuilder b).add { values := type.params.length }) := by
  refine ⟨⟨?_, .nil (Nat.le_refl _), by simp, by simp [Builder.function, Builder.newFunction]⟩, rfl⟩
  show Fresh ((b.newParams type.params).1.map (·.id) ++ []) b.nextValue.toNat
    (b.nextValue.toNat + type.params.length)
  rw [(newParams_spec b hfit).1, append_nil]
  exact .range _ _

section
variable (h : Drafts l f x y)
include h

theorem addParamAttribute (i : Nat) (a : Attribute) : Drafts l (f.addParamAttribute i a) x y := by
  refine ⟨h.accounts.of_params (ext_getElem? fun k => ?_), h.targets⟩
  rw [FunctionBuilder.addParamAttribute, getElem?_map, getElem?_map, getElem?_modify]
  cases f.function.params[k]? with
  | none => rfl
  | some p =>
    by_cases hik : i = k <;> simp [hik]

theorem appendBlock (hy : y.blocks = f.owner.nextBlock.toNat) (name : String) :
    Drafts { l with target := l.target.or (some (f.appendBlock name).1) } (f.appendBlock name).2 x
      { y with blocks := y.blocks + 1 } := by
  have happend := h.accounts.appendBlock (some name)
  rw [hy] at happend
  refine ⟨hy ▸ happend, ?_⟩
  have htargets := h.targets
  cases htarget : l.target with
  | none =>
    rw [htarget] at htargets
    refine ⟨f.function.blocks.length, { id := f.owner.nextBlock.toNat, name := some name },
      ?_, ?_, rfl⟩
    · show f.current.or _ = _
      rw [show f.current = none from htargets]
      rfl
    · exact getElem?_concat_length
  | some id =>
    rw [htarget] at htargets
    refine htargets.of_blocks ?_ fun k b hb => ⟨b, ?_, rfl⟩
    · obtain ⟨k, b, hk, -⟩ := htargets
      show f.current.or _ = _
      rw [hk]
      rfl
    · exact getElem?_append_left (lt_of_getElem? hb) ▸ hb

theorem positionAt (id : BlockId) : Drafts (l.ask f (.positionAt id)) (f.positionAt id) x y := by
  rw [FunctionBuilder.positionAt]
  split
  · next k hk =>
    obtain ⟨hlt, hid, -⟩ := findIdx?_eq_some_iff_getElem.mp hk
    have hid : f.function.blocks[k].id = id := by simpa using hid
    rw [Ledger.ask, if_pos (hid ▸ List.mem_map_of_mem (getElem_mem hlt))]
    exact ⟨h.accounts, k, _, rfl, getElem?_eq_getElem hlt, hid⟩
  · next hnone =>
    rw [Ledger.ask, if_neg]
    · exact h
    · simpa using hnone

/-- Where there is no block, one is made first. -/
theorem ready (hy : y.blocks = f.owner.nextBlock.toNat) :
    Drafts { l with target := some (l.target.getD (f.appendBlock "entry").1) } (Building.ready f) x
      { y with blocks := y.blocks + f.current.isNone.toNat } := by
  have htargets := h.targets
  cases htarget : l.target with
  | none =>
    rw [htarget] at htargets
    have hready : Building.ready f = (f.appendBlock "entry").2 := by
      rw [Building.ready, if_pos (Option.isNone_iff_eq_none.mpr htargets)]
    rw [hready, show f.current = none from htargets]
    have happend := h.appendBlock hy "entry"
    rw [htarget] at happend
    exact happend
  | some id =>
    rw [htarget] at htargets
    obtain ⟨k, -, hk, -⟩ := htargets
    have hready : Building.ready f = f := by
      rw [Building.ready, if_neg (by simp [hk])]
    rw [hready, hk]
    exact ⟨h.accounts, htarget ▸ h.targets⟩

theorem put {e : Entry} {i : Instruction} (he : e.Describes i) (htarget : l.target = some e.block)
    (hi : i.id = y.values) :
    Drafts { l with draft := l.draft ++ [e] } (Building.put f i) x
      { y with values := y.values + 1 } := by
  have htargets := h.targets
  rw [htarget] at htargets
  obtain ⟨k, b, hk, hb, hid⟩ := htargets
  have hlt := lt_of_getElem? hb
  obtain ⟨before, b', later, hsplit, hlength, hmodify⟩ :=
    exists_of_modify (fun b : Block => { b with instructions := b.instructions ++ [i] }) hlt
  obtain rfl : b' = b := by
    rw [hsplit, getElem?_append_right (by omega), hlength, Nat.sub_self] at hb
    exact Option.some.inj hb
  refine ⟨?_, ?_⟩
  · show Accounts _ _ (f.function.blocks.modify (f.current.getD 0) _) _ _
    rw [hk, Option.getD_some, hmodify]
    exact (hsplit ▸ h.accounts).put he hid.symm hi
  · refine h.targets.of_blocks rfl fun j c hc => ?_
    show ∃ b', (f.function.blocks.modify _ _)[j]? = some b' ∧ _
    rw [getElem?_modify, hc]
    refine ⟨_, rfl, ?_⟩
    split <;> rfl

theorem make (hy : y = .ofBuilder f.owner) (k : Making) :
    Drafts (l.ask f (.make k)) (k.run f).2 x (y.add ((Request.make k).draws f)) := by
  subst hy
  obtain ⟨i, hrun, hi, hphi⟩ := run_eq f k
  have he : Entry.Describes { value := (k.run f).1, making := k, block :=
                                l.target.getD (f.appendBlock "entry").1 } i := by
    refine ⟨?_, fun ty incoming hk => ?_⟩
    · rw [hrun, hi]
    · rw [append_nil]
      exact hphi ty incoming hk
  have hput := (h.ready rfl).put he rfl hi
  rw [hrun]
  exact hput

theorem addIncoming (phi v : Operand) (block : BlockId) :
    Drafts (l.ask f (.addIncoming phi v block)) (f.addIncoming phi v block) x y := by
  by_cases hphi : ∃ id, phi = .value id
  · obtain ⟨id, rfl⟩ := hphi
    have hnodup := (nodup_append.mp h.accounts.values.nodup).2.1
    have hblocks : (f.addIncoming (.value id) v block).function.blocks =
        f.function.blocks.map (changeIn id (withEdge v block)) := modifyInstruction_eq_map hnodup
    refine ⟨?_, ?_⟩
    · rw [hblocks]
      exact h.accounts.addEdge id v block
    · refine h.targets.of_blocks rfl fun k b hb => ⟨changeIn id (withEdge v block) b, ?_, rfl⟩
      rw [hblocks, getElem?_map, hb]
      rfl
  · -- Only values have entries, so neither side changes.
    have hdraft : l.draft.map (Entry.addEdge phi v block) = l.draft := by
      refine (map_congr_left fun e he => ?_).trans (List.map_id _)
      obtain ⟨b, -, -, i, -, hvalue, -⟩ := h.accounts.exists_described he
      exact if_neg fun heq => hphi ⟨i.id, heq.symm.trans hvalue⟩
    have hsame : f.addIncoming phi v block = f := by
      cases phi with
      | value id => exact absurd ⟨id, rfl⟩ hphi
      | _ => rfl
    rw [hsame, Ledger.ask, hdraft]
    exact h

theorem ask (hy : y = .ofBuilder f.owner) (r : Request) :
    Drafts (l.ask f r) (r.run f) x (y.add (r.draws f)) := by
  cases r with
  | addParamAttribute i a => exact h.addParamAttribute i a
  | addAttribute a => exact ⟨h.accounts, h.targets⟩
  | setReadable name => exact ⟨h.accounts, h.targets⟩
  | setPersonality name => exact ⟨h.accounts, h.targets⟩
  | appendBlock name => exact h.appendBlock (hy ▸ rfl) name
  | positionAt id => exact h.positionAt id
  | make k => exact h.make hy k
  | addIncoming phi v block => exact h.addIncoming phi v block

end

end Drafts

/-- While a function is open, the module stays as it is, and the counters go on by what is drawn. -/
theorem run_owner (f : FunctionBuilder) (r : Request)
    (h : ((Counts.ofBuilder f.owner).add (r.draws f)).Fit) :
    (r.run f).owner.module = f.owner.module ∧ .ofBuilder
    (r.run f).owner = (Counts.ofBuilder f.owner).add (r.draws f) := by
  have hblock (h : f.owner.nextBlock.toNat + 1 < UInt32.size) :
      Counts.ofBuilder f.owner.freshBlock.2 = (Counts.ofBuilder f.owner).add { blocks := 1 } :=
    congrArg (Counts.mk _) (toNat_succ h)
  cases r with
  | appendBlock name => exact ⟨rfl, hblock h.2⟩
  | positionAt id =>
    show (f.positionAt id).owner.module = _ ∧ Counts.ofBuilder (f.positionAt id).owner = _
    rw [FunctionBuilder.positionAt]
    split <;> exact ⟨rfl, rfl⟩
  | make k =>
    obtain ⟨i, hrun, -⟩ := run_eq f k
    show (k.run f).2.owner.module = _ ∧ Counts.ofBuilder (k.run f).2.owner = _
    rw [hrun]
    show (ready f).owner.module = _ ∧ Counts.ofBuilder (ready f).owner.freshValue.2 = _
    obtain ⟨owner, function, current⟩ := f
    have hvalue : (owner.nextValue + 1).toNat = owner.nextValue.toNat + 1 := toNat_succ h.1
    cases current with
    | none => exact ⟨rfl, congrArg₂ Counts.mk hvalue (toNat_succ h.2)⟩
    | some k => exact ⟨rfl, congrArg (Counts.mk · _) hvalue⟩
  | addIncoming phi v block => cases phi <;> exact ⟨rfl, rfl⟩
  | _ => exact ⟨rfl, rfl⟩

theorem kept_ask (l : Ledger) (f : FunctionBuilder) (r : Request) : (l.ask f r).kept = l.kept := by
  cases r with
  | positionAt id =>
    rw [Ledger.ask]
    split <;> rfl
  | _ => rfl

/-! ## A module under construction -/

variable {s : State}

/-- As long as no counter passes its last number, counters go on by what is drawn. -/
theorem ofBuilder_call {c : Call} (h : ((Counts.ofBuilder s.builder).add (s.draws c)).Fit) :
    .ofBuilder (s.call c).builder = (Counts.ofBuilder s.builder).add (s.draws c) := by
  have hparams (type : FunctionType) (h : s.builder.nextValue.toNat + type.params.length <
      UInt32.size) : .ofBuilder (s.builder.newParams type.params).2 =
        (Counts.ofBuilder s.builder).add { values := type.params.length } := by
    obtain ⟨-, -, hblock, hvalue⟩ := newParams_spec s.builder h
    rw [Counts.ofBuilder, hblock, hvalue]
    rfl
  cases c with
  | addStruct | addGlobal => rfl
  | declare name type => exact hparams type h.1
  | function name type => exact hparams type h.1
  | request r =>
    cases s with
    | between b => rfl
    | inside f => exact (run_owner f r h).2
  | finish => cases s <;> rfl

/-- A ledger tells of the functions of a module. -/
def Keeps (l : Ledger) (m : Module) : Counts → Prop :=
  Accounts l.kept (m.functions.flatMap (·.params)) (m.functions.flatMap (·.blocks)) ⟨0, 0⟩

/-- A ledger tells of a module and of the function that is open. -/
def Tells (l : Ledger) : State → Prop
  | .between b => l.draft = [] ∧ Keeps l b.module (.ofBuilder b)
  | .inside f => ∃ x, Keeps l f.owner.module x ∧ Drafts l f x (.ofBuilder f.owner)

namespace Tells

variable {l : Ledger}

section
variable (h : Tells l s)
include h

/-- The function that is open can be dropped. -/
theorem keeps : Keeps l s.builder.module (.ofBuilder s.builder) := by
  cases s with
  | between b => exact h.2
  | inside f =>
    obtain ⟨x, hkeeps, hdrafts⟩ := h
    exact hkeeps.mono hdrafts.accounts.values.le hdrafts.accounts.blockIds.le

theorem function (name : String) (type : FunctionType)
    (hfit : ((Counts.ofBuilder s.builder).add (s.draws (.function name type))).Fit) :
    Tells { kept := l.kept } (.inside (s.builder.function name type)) := by
  refine ⟨.ofBuilder s.builder, ?_, ?_⟩
  · show Keeps _ (s.builder.newParams type.params).2.module _
    rw [(newParams_spec s.builder hfit.1).2.1]
    exact h.keeps
  · rw [show Counts.ofBuilder (s.builder.function name type).owner = _ from ofBuilder_call hfit]
    exact .begin s.builder name type l.kept hfit.1

theorem ask {r : Request} (hfit : ((Counts.ofBuilder s.builder).add (s.draws (.request r))).Fit) :
    Tells (l.note s (.request r)) (s.ask r) := by
  cases s with
  | between b => exact h
  | inside f =>
    obtain ⟨x, hkeeps, hdrafts⟩ := h
    obtain ⟨hmodule, hcounts⟩ := run_owner f r hfit
    refine ⟨x, ?_, hcounts ▸ hdrafts.ask rfl r⟩
    show Accounts (l.ask f r).kept _ _ _ _
    rw [hmodule, kept_ask]
    exact hkeeps

theorem finish : Tells { kept := l.kept ++ l.draft } s.finish := by
  cases s with
  | between b =>
    rw [h.1, append_nil]
    exact ⟨rfl, h.2⟩
  | inside f =>
    obtain ⟨x, hkeeps, hdrafts⟩ := h
    have hboth := hkeeps.append hdrafts.accounts
    refine ⟨rfl, ?_⟩
    show Accounts _ ((f.owner.module.functions ++ [f.function]).flatMap _)
      ((f.owner.module.functions ++ [f.function]).flatMap _) _ (.ofBuilder f.owner)
    rw [flatMap_append, flatMap_append, flatMap_singleton, flatMap_singleton]
    exact hboth

theorem call {c : Call} (hfit : ((Counts.ofBuilder s.builder).add (s.draws c)).Fit) :
    Tells (l.note s c) (s.call c) := by
  cases c with
  | addStruct name fields packed => exact ⟨rfl, h.keeps⟩
  | addGlobal name ty initializer => exact ⟨rfl, h.keeps⟩
  | declare name type =>
    -- A declaration is a function that is finished without a block.
    have hfinish := (h.function name type hfit).finish
    rw [append_nil] at hfinish
    exact hfinish
  | function name type => exact h.function name type hfit
  | request r => exact h.ask hfit
  | finish => exact h.finish

theorem after {calls : List Call} {t : State} (ht : s.after? calls = some t) :
    Tells (l.through s calls) t := by
  induction calls generalizing l s with
  | nil =>
    cases ht
    exact h
  | cons c calls ih =>
    rw [State.after?, foldlM_cons] at ht
    obtain ⟨_, hc, ht⟩ := Option.bind_eq_some_iff.mp ht
    rw [State.call?] at hc
    split at hc
    · next hfit =>
      cases hc
      exact ih (h.call hfit) ht
    · cases hc

end

theorem start (name : String) : Tells {} (.start name) :=
  ⟨rfl, .empty (Nat.le_refl _) (Nat.le_refl _)⟩

end Tells

end Stackify.Ssa.Building
