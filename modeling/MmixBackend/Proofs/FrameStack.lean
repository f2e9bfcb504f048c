import Mathlib.Data.List.Chain
import MmixBackend.Proofs.Roles

/-!
# Frames on the stack

The functions that run have their frames one below the other, each at the stack pointer of the
function that called it.  So a variable of one of them is never at the frame pointer of another, and
what a value stands for in the code is what it holds in the run: the frame pointer of the latest
activation of a function around, a constant, or an address that is no frame pointer.
-/

namespace MmixBackend

open Typed Machine

/-! ## Functions that run -/

/-- The activation is one of the function. -/
def Machine.Activation.runs (layout : Layout) (head : Head) (a : Activation) : Bool :=
  layout.frames[head.id]?.any (·.label = a.body.chunk.frame.label)

/-- The frame pointer of the latest activation of a function. -/
def Machine.latest (layout : Layout) (stack : List Activation) (head : Head) : Option Word :=
  (stack.find? (·.runs layout head)).map (·.savedSp)

/-- A body is that of a function of the program, with these functions around it. -/
structure Machine.Body.Hosts (p : Program) (layout : Layout) (around : List Head) (head : Head)
    (b : Body) : Prop where
  item : ∃ e, Item.function around head (some e) ∈ p.items ∧
    Layouting.Furnished layout around head (some e) b.chunk.frame
  proper : b.chunk.Proper ⟨p, layout, head :: around, b.chunk.frame⟩
  code : b.code = b.chunk.stmts.toArray

/-- Under every label is the body of a function of the program with that label, and labels tell
functions apart. -/
structure Machine.Image.Hosts (p : Program) (layout : Layout) (image : Image) : Prop where
  bodies : ∀ (l : Label) (b : Body), image.bodies[l]? = some b →
    b.chunk.frame.label = l ∧ ∃ around head, b.Hosts p layout around head
  unique : ∀ {around around' head head' body body'} {f f' : Frame},
    Item.function around head body ∈ p.items → Item.function around' head' body' ∈ p.items →
    layout.frames[head.id]? = some f → layout.frames[head'.id]? = some f' → f.label = f'.label →
    Item.function around head body = Item.function around' head' body'

section Hosts

variable {p : Program} {layout : Layout} {image : Image} {around around' : List Head}
  {head head' h : Head} {b : Body} {a : Activation} {stack : List Activation} {fp : Word}

theorem Machine.Body.Hosts.frame (hb : b.Hosts p layout around head) :
    layout.frames[head.id]? = some b.chunk.frame := by
  obtain ⟨e, -, hf⟩ := hb.item
  exact hf.frame

/-- The parts of a frame, and what they are at least. -/
theorem Machine.Body.Hosts.size (hb : b.Hosts p layout around head) :
    b.chunk.frame.size.toInt = b.chunk.frame.locals.toInt + b.chunk.frame.arguments.toInt + 16 ∧
      0 ≤ b.chunk.frame.locals.toInt ∧ 0 ≤ b.chunk.frame.arguments.toInt := by
  obtain ⟨e, -, hf⟩ := hb.item
  exact ⟨hf.size, hf.nonneg, hf.arguments⟩

theorem Machine.Activation.runs_iff {f : Frame} (hf : layout.frames[h.id]? = some f) :
    a.runs layout h ↔ f.label = a.body.chunk.frame.label := by
  simp [Activation.runs, hf]

theorem Machine.Body.Hosts.runs (ha : a.body.Hosts p layout around head) :
    a.runs layout head := (Activation.runs_iff ha.frame).mpr rfl

theorem Machine.Body.Hosts.unique (hi : image.Hosts p layout) (hb : b.Hosts p layout around head)
    (hb' : b.Hosts p layout around' head') : around = around' ∧ head = head' := by
  obtain ⟨e, he, hf⟩ := hb.item
  obtain ⟨e', he', hf'⟩ := hb'.item
  cases hi.unique he he' hf.frame hf'.frame rfl
  exact ⟨rfl, rfl⟩

/-- A function of the program that an activation runs is the one that its body is of. -/
theorem Machine.Body.Hosts.eq_of_runs (hi : image.Hosts p layout)
    (ha : a.body.Hosts p layout around head) {rest : List Head} {body : Option Expr}
    (hitem : Item.function rest h body ∈ p.items) (hruns : a.runs layout h) :
    rest = around ∧ h = head := by
  obtain ⟨e, he, hf⟩ := ha.item
  cases hframe : layout.frames[h.id]? with
  | none => simp [Activation.runs, hframe] at hruns
  | some f =>
    cases hi.unique hitem he hframe hf.frame ((Activation.runs_iff hframe).mp hruns)
    exact ⟨rfl, rfl⟩

/-- No activation of a function is one of a function around it. -/
theorem Machine.Body.Hosts.not_runs (hi : image.Hosts p layout)
    (ha : a.body.Hosts p layout around head) (hh : h ∈ around) : ¬ a.runs layout h := by
  intro hruns
  obtain ⟨e, he, -⟩ := ha.item
  obtain ⟨before, rest, hsplit⟩ := List.append_of_mem hh
  have hsuffix : h :: rest <:+ head :: around := by
    rw [hsplit]
    exact (List.suffix_append _ _).trans (List.suffix_cons _ _)
  obtain ⟨b, hb⟩ := Program.item_around he hsuffix
  obtain ⟨hrest, -⟩ := ha.eq_of_runs hi hb hruns
  have hlength := congrArg List.length hsplit
  rw [hrest, List.length_append, List.length_cons] at hlength
  omega

theorem exists_of_latest (h : latest layout stack head = some fp) :
    ∃ a ∈ stack, a.runs layout head ∧ a.savedSp = fp := by
  obtain ⟨a, ha, hfp⟩ := Option.map_eq_some_iff.mp h
  exact ⟨a, List.mem_of_find?_eq_some ha, List.find?_some ha, hfp⟩

theorem latest_self (ha : a.runs layout head) : latest layout (a :: stack) head = some a.savedSp := by
  rw [latest, List.find?_cons_of_pos ha, Option.map_some]

theorem latest_cons (ha : ¬ a.runs layout head) :
    latest layout (a :: stack) head = latest layout stack head := by
  rw [latest, List.find?_cons_of_neg ha, latest]

/-- The latest activation is told by labels and frame pointers. -/
theorem latest_congr {a' : Activation} (hbody : a'.body = a.body) (hfp : a'.savedSp = a.savedSp) :
    latest layout (a' :: stack) head = latest layout (a :: stack) head := by
  have hruns : a'.runs layout head = a.runs layout head := by
    rw [Activation.runs, Activation.runs, hbody]
  by_cases ha : a.runs layout head
  · rw [latest_self ha, latest_self (hruns.trans ha), hfp]
  · rw [latest_cons ha, latest_cons (by rwa [hruns])]

end Hosts

/-! ## The stack -/

/-- What a value that stands for something is in a run.  The functions around have the frame pointers
`ups`, and all functions that run have `fps`. -/
def Ir.Role.Holds (ups fps : List Word) : Ir.Role → Word → Prop
  | .link n, v => ups[n]? = some v
  | .word w, v => v = w
  | .cell, v => v ∉ fps

/-- An activation of a function over those below it.  The latest activations of the function itself
and of those around it have the frame pointers `ups`, each of which leads to the next; and
temporaries hold what they stand for. -/
structure Seated (p : Program) (layout : Layout) (m : Memory) (a : Activation)
    (below : List Activation) (around : List Head) (head : Head) (ups : List Word) : Prop where
  hosts : a.body.Hosts p layout around head
  reached : List.Forall₂ (fun h fp => latest layout (a :: below) h = some fp) (head :: around) ups
  links : ups.IsChain fun fp fp' => m.load fp = fp'
  fp : a.temps[a.body.chunk.frame.fp]? = some a.savedSp
  temps : ∀ (t : Temp) (v : Word) (r : Ir.Role), a.temps[t]? = some v →
    Ir.Plays ⟨p, layout, head :: around, a.body.chunk.frame⟩ a.body.chunk.stmts (.temp t) r →
    r.Holds ups ((a :: below).map (·.savedSp)) v

/-- Functions that run, the latest first: each has its frame where the one that called it has its
stack pointer, and its parameters in the area for arguments of that one. -/
inductive Stacked (p : Program) (layout : Layout) (m : Memory) : List Activation → Prop
  | entry {a : Activation} {around : List Head} {head : Head} {ups : List Word}
      (hseat : Seated p layout m a [] around head ups) (hfp : a.savedSp = stackStart) :
      Stacked p layout m [a]
  | call {a c : Activation} {below : List Activation} {around : List Head} {head : Head}
      {ups : List Word} (hseat : Seated p layout m a (c :: below) around head ups)
      (hfp : a.savedSp.toInt = c.savedSp.toInt - c.body.chunk.frame.size.toInt)
      (hroom : 8 + head.bytes ≤ c.body.chunk.frame.arguments.toInt)
      (hrest : Stacked p layout m (c :: below)) : Stacked p layout m (a :: c :: below)

section Stacked

variable {p : Program} {layout : Layout} {image : Image} {m m' : Memory} {a b : Activation}
  {above below stack : List Activation} {around : List Head} {head : Head} {ups : List Word}

theorem Stacked.seated (hs : Stacked p layout m (a :: below)) :
    ∃ around head ups, Seated p layout m a below around head ups := by
  cases hs with
  | entry hseat => exact ⟨_, _, _, hseat⟩
  | call hseat => exact ⟨_, _, _, hseat⟩

theorem Stacked.suffix (hs : Stacked p layout m (above ++ a :: below)) :
    Stacked p layout m (a :: below) := by
  induction above with
  | nil => exact hs
  | cons x above ih =>
    generalize hrest : above ++ a :: below = rest at ih
    rw [List.cons_append, hrest] at hs
    cases hs with
    | entry => simp at hrest
    | call _ _ _ hs => exact ih hs

theorem Stacked.hosts (hs : Stacked p layout m stack) (ha : a ∈ stack) :
    ∃ around head, a.body.Hosts p layout around head := by
  obtain ⟨above, below, rfl⟩ := List.append_of_mem ha
  obtain ⟨around, head, ups, hseat⟩ := hs.suffix.seated
  exact ⟨around, head, hseat.hosts⟩

/-- The frame of a function is below those of the functions that wait for it. -/
theorem Stacked.frame_below (hs : Stacked p layout m (a :: below)) :
    ∀ b ∈ below, a.savedSp.toInt ≤ b.savedSp.toInt - b.body.chunk.frame.size.toInt := by
  induction below generalizing a with
  | nil => exact fun b hb => nomatch hb
  | cons c below ih =>
    cases hs with
    | call hseat hfp _ hrest =>
      intro b hb
      rcases List.mem_cons.mp hb with rfl | hb
      · exact Int.le_of_eq hfp
      · have hc := ih hrest b hb
        obtain ⟨around', head', hhosts⟩ := hrest.hosts List.mem_cons_self
        obtain ⟨hsize, hlocals, harguments⟩ := hhosts.size
        omega

/-- The parameters of a function are below the frames of the functions that wait for it. -/
theorem Stacked.params_below (hi : image.Hosts p layout) (hs : Stacked p layout m (a :: below))
    (ha : a.body.Hosts p layout around head) :
    ∀ b ∈ below, a.savedSp.toInt + head.bytes < b.savedSp.toInt := by
  intro b hb
  cases hs with
  | entry => cases hb
  | @call _ c _ _ _ _ hseat hfp hroom hrest =>
    obtain ⟨-, rfl⟩ := hseat.hosts.unique hi ha
    obtain ⟨around', head', hhosts⟩ := hrest.hosts List.mem_cons_self
    obtain ⟨hsize, hlocals, -⟩ := hhosts.size
    have hc : c.savedSp.toInt ≤ b.savedSp.toInt := by
      rcases List.mem_cons.mp hb with rfl | hb
      · exact Int.le_refl _
      · obtain ⟨_, _, hb'⟩ := hrest.hosts (List.mem_cons_of_mem _ hb)
        obtain ⟨hsize', hlocals', harguments'⟩ := hb'.size
        have hle := hrest.frame_below b hb
        omega
    omega

theorem Stacked.le_start (hs : Stacked p layout m stack) :
    ∀ a ∈ stack, a.savedSp.toInt ≤ stackStart.toInt := by
  induction hs with
  | entry _ hfp =>
    intro a ha
    obtain rfl := List.mem_singleton.mp ha
    exact Int.le_of_eq (congrArg Int64.toInt hfp)
  | call hseat hfp _ hrest ih =>
    intro a ha
    rcases List.mem_cons.mp ha with rfl | ha
    · obtain ⟨around', head', hhosts⟩ := hrest.hosts List.mem_cons_self
      obtain ⟨hsize, hlocals, harguments⟩ := hhosts.size
      have hc := ih _ List.mem_cons_self
      omega
    · exact ih a ha

/-- Variables and parameters of one function are at the frame pointer of none. -/
theorem Stacked.cell_apart (hi : image.Hosts p layout) (hs : Stacked p layout m stack) {sp : Word}
    (hheap : heapStart ≤ sp)
    (hsp : ∀ b ∈ stack, sp.toInt ≤ b.savedSp.toInt - b.body.chunk.frame.size.toInt)
    (ha : a ∈ stack) (hhosts : a.body.Hosts p layout around head) {offset : Word}
    (hcell : 8 ≤ offset.toInt ∧ offset.toInt ≤ head.bytes ∨
      -a.body.chunk.frame.locals.toInt ≤ offset.toInt ∧ offset.toInt + 8 ≤ 0) :
    a.savedSp + offset ∉ stack.map (·.savedSp) := by
  intro hmem
  obtain ⟨b, hb, heq⟩ := List.mem_map.mp hmem
  have hheapInt : (3458764513820540928 : Int) ≤ sp.toInt := Int64.le_iff_toInt_le.mp hheap
  have hstart : a.savedSp.toInt ≤ 6917529027641081856 := hs.le_start a ha
  have hlow := hsp a ha
  have hlowB := hsp b hb
  obtain ⟨hsize, hlocals, harguments⟩ := hhosts.size
  obtain ⟨_, _, hhostsB⟩ := hs.hosts hb
  obtain ⟨hsizeB, hlocalsB, hargumentsB⟩ := hhostsB.size
  -- a sum that leaves the range of words would be negative, and no frame pointer is
  have hexact : b.savedSp.toInt = a.savedSp.toInt + offset.toInt := by
    have hsum : b.savedSp.toInt = (a.savedSp.toInt + offset.toInt).bmod (2 ^ 64) := by
      rw [heq]
      exact Int64.toInt_add _ _
    have hlt := Int64.toInt_lt offset
    rw [Int.bmod_def] at hsum
    split at hsum <;> omega
  obtain ⟨above, below, rfl⟩ := List.append_of_mem ha
  rcases List.mem_append.mp hb with hb | hb
  · obtain ⟨above', between, rfl⟩ := List.append_of_mem hb
    rw [List.append_assoc, List.cons_append] at hs
    have hle := hs.suffix.frame_below a (List.mem_append_right _ List.mem_cons_self)
    omega
  · rcases List.mem_cons.mp hb with rfl | hb
    · omega
    · have hle := hs.suffix.frame_below b hb
      have hparams := hs.suffix.params_below hi hhosts b hb
      omega

/-- Memory may change where no frame pointer leads. -/
theorem Seated.congr (hs : Seated p layout m a below around head ups)
    (hload : ∀ b ∈ a :: below, m'.load b.savedSp = m.load b.savedSp) :
    Seated p layout m' a below around head ups := by
  refine { hs with links := hs.links.imp_of_mem_imp fun fp fp' hfp _ hlink => ?_ }
  obtain ⟨h, -, hlatest⟩ := exists_rel_of_mem hs.reached.flip fp hfp
  obtain ⟨b, hb, -, rfl⟩ := exists_of_latest hlatest
  rw [hload b hb, hlink]

theorem Stacked.congr (hs : Stacked p layout m stack)
    (hload : ∀ b ∈ stack, m'.load b.savedSp = m.load b.savedSp) : Stacked p layout m' stack := by
  induction hs with
  | entry hseat hfp => exact .entry (hseat.congr hload) hfp
  | call hseat hfp hroom _ ih =>
    exact .call (hseat.congr hload) hfp hroom (ih fun b hb => hload b (List.mem_cons_of_mem _ hb))

end Stacked

/-! ## What values are -/

/-- The stack has not grown into the heap or the data. -/
def Machine.Image.Clear (image : Image) (sp : Word) : Prop :=
  heapStart ≤ sp ∧ ∀ d ∈ image.data.toList, d.2 < sp

/-- A function is running, over those that wait for it, and SP is where its frame ends. -/
structure Machine.World.Stands (p : Program) (layout : Layout) (w : World) (a : Activation)
    (below : List Activation) : Prop where
  stacked : Stacked p layout w.memory (a :: below)
  sp : w.sp.toInt = a.savedSp.toInt - a.body.chunk.frame.size.toInt

section Stands

variable {p : Program} {layout : Layout} {image : Image} {w : World} {a : Activation}
  {below : List Activation} {around : List Head} {head : Head} {ups : List Word}

theorem Machine.World.Stands.sp_le (hs : w.Stands p layout a below) :
    ∀ b ∈ a :: below, w.sp.toInt ≤ b.savedSp.toInt - b.body.chunk.frame.size.toInt := by
  intro b hb
  rcases List.mem_cons.mp hb with rfl | hb
  · exact Int.le_of_eq hs.sp
  · have hle := hs.stacked.frame_below b hb
    obtain ⟨_, _, hhosts⟩ := hs.stacked.hosts List.mem_cons_self
    obtain ⟨hsize, hlocals, harguments⟩ := hhosts.size
    have hsp := hs.sp
    omega

theorem Machine.World.Stands.sp_lt (hs : w.Stands p layout a below) :
    ∀ b ∈ a :: below, w.sp.toInt < b.savedSp.toInt := by
  intro b hb
  have hle := hs.sp_le b hb
  obtain ⟨_, _, hhosts⟩ := hs.stacked.hosts hb
  obtain ⟨hsize, hlocals, harguments⟩ := hhosts.size
  omega

theorem Seated.getElem?_ups {m : Memory} (hs : Seated p layout m a below around head ups) {n : Nat}
    {fp : Word} (hfp : ups[n]? = some fp) {h : Head} (hh : (head :: around)[n]? = some h) :
    latest layout (a :: below) h = some fp := by
  obtain ⟨hn, rfl⟩ := List.getElem?_eq_some_iff.mp hfp
  obtain ⟨hn', rfl⟩ := List.getElem?_eq_some_iff.mp hh
  exact (List.forall₂_iff_get.mp hs.reached).2 n hn' hn

/-- A value in the code is what it stands for. -/
theorem Seated.holds (hi : image.Hosts p layout) (hs : w.Stands p layout a below)
    (hc : image.Clear w.sp) (hseat : Seated p layout w.memory a below around head ups)
    {result : Option Word} {e : Ir.Expr} {r : Ir.Role}
    (hr : Ir.Plays ⟨p, layout, head :: around, a.body.chunk.frame⟩ a.body.chunk.stmts e r) :
    ∀ {v : Word}, eval image w.memory a result e = .ok v →
      r.Holds ups ((a :: below).map (·.savedSp)) v := by
  have htemp : ∀ {t : Temp} {r : Ir.Role} {v : Word}, eval image w.memory a result (.temp t) = .ok v →
      Ir.Plays ⟨p, layout, head :: around, a.body.chunk.frame⟩ a.body.chunk.stmts (.temp t) r →
      r.Holds ups ((a :: below).map (·.savedSp)) v := by
    intro t r v hv hr
    simp only [eval, Activation.temp] at hv
    split at hv
    · next hget =>
      cases hv
      exact hseat.temps t _ r hget hr
    · cases hv
  induction hr with
  | fp => exact fun hv => htemp hv .fp
  | set hmem hsrc => exact fun hv => htemp hv (.set hmem hsrc)
  | const v =>
    intro v' hv
    cases hv
    rfl
  | @follow e n he hn ih =>
    intro v hv
    rw [eval] at hv
    obtain ⟨addr, haddr, hv⟩ := bind_eq_ok hv
    cases hv
    have hlen : n + 1 < ups.length := hseat.reached.length_eq ▸ hn
    obtain ⟨hn', hget⟩ := List.getElem?_eq_some_iff.mp (ih haddr)
    have hlink := hseat.links.getElem n hlen
    show ups[n + 1]? = some (w.memory.load addr)
    rw [← hget, hlink]
    exact List.getElem?_eq_getElem hlen
  | @cell l r n offset hl hr hcell ihl ihr =>
    intro v hv
    rw [eval] at hv
    obtain ⟨x, hx, hv⟩ := bind_eq_ok hv
    obtain ⟨y, hy, hv⟩ := bind_eq_ok hv
    cases hv
    obtain rfl : y = offset := ihr hy
    obtain ⟨h, f, hh, hf, hbounds⟩ := hcell
    obtain ⟨b, hb, hruns, rfl⟩ := exists_of_latest (hseat.getElem?_ups (ihl hx) hh)
    obtain ⟨around', head', hhosts⟩ := hs.stacked.hosts hb
    -- the function around whose variable it is, is the one that this activation runs
    obtain ⟨e, he, -⟩ := hseat.hosts.item
    have hsuffix : h :: (head :: around).drop (n + 1) <:+ head :: around := by
      obtain ⟨hn, rfl⟩ := List.getElem?_eq_some_iff.mp hh
      rw [← List.drop_eq_getElem_cons hn]
      exact List.drop_suffix _ _
    obtain ⟨body, hitem⟩ := Program.item_around he hsuffix
    obtain ⟨-, rfl⟩ := hhosts.eq_of_runs hi hitem hruns
    cases hf.symm.trans hhosts.frame
    exact hs.stacked.cell_apart hi hc.1 hs.sp_le hb hhosts hbounds
  | data l =>
    intro v hv hmem
    rw [eval] at hv
    split at hv
    · next addr hdata =>
      cases hv
      obtain ⟨b, hb, heq⟩ := List.mem_map.mp hmem
      have hlt : v.toInt < w.sp.toInt := Int64.lt_iff_toInt_lt.mp
        (hc.2 (l, v) (Std.ExtTreeMap.mem_toList_iff_getElem?_eq_some.mpr hdata))
      have hfp := hs.sp_lt b hb
      rw [heq] at hfp
      omega
    · cases hv

end Stands

end MmixBackend
