import MmixBackend.Proofs.FrameStack

/-!
# Static links lead to the functions around

At its frame pointer a function has its static link.  In a program that keeps to lexical scope and
stores to variables only, this is the frame pointer of the latest activation of the function around
it, for every function that runs and in every state of a run, as long as the stack has not grown
into the heap or the data.  So code that follows `n` links comes to the frame of the `n`th function
around.

A step keeps the stack in order: a statement stores to no frame pointer, a call hands on the link
that its callee needs, and a return leaves the callers as they were.  When two functions at top level
have one name, a call may reach the wrong one of them, which then stores to where it has no
parameter.
-/

namespace MmixBackend

open Typed Build Machine

section Steps

variable {p : Program} {layout : Layout} {image : Image} {w w' : World} {a a' : Activation}
  {below : List Activation} {around : List Head} {head : Head} {ups : List Word} {m : Memory}

/-! ## Statements -/

/-- The function that is running may go on with other temporaries. -/
theorem Seated.top (hs : Seated p layout m a below around head ups) (hbody : a'.body = a.body)
    (hfp : a'.savedSp = a.savedSp)
    (hown : a'.temps[a.body.chunk.frame.fp]? = a.temps[a.body.chunk.frame.fp]?)
    (htemps : ∀ (t : Temp) (v : Word) (r : Ir.Role), a'.temps[t]? = some v →
      Ir.Plays ⟨p, layout, head :: around, a.body.chunk.frame⟩ a.body.chunk.stmts (.temp t) r →
      r.Holds ups ((a :: below).map (·.savedSp)) v) :
    Seated p layout m a' below around head ups where
  hosts := hbody ▸ hs.hosts
  reached := hs.reached.imp fun h fp hlatest => (latest_congr hbody hfp).trans hlatest
  links := hs.links
  fp := by rw [hbody, hown, hs.fp, hfp]
  temps := by
    rw [hbody, List.map_cons, hfp]
    exact htemps

theorem Stacked.top (hs : Stacked p layout m (a :: below)) (hfp : a'.savedSp = a.savedSp)
    (hseats : ∀ {around head ups}, Seated p layout m a below around head ups →
      Seated p layout m a' below around head ups) : Stacked p layout m (a' :: below) := by
  cases hs with
  | entry hseat hstart => exact .entry (hseats hseat) (hfp.trans hstart)
  | call hseat hcaller hroom hrest => exact .call (hseats hseat) (hfp ▸ hcaller) hroom hrest

theorem Machine.World.Stands.position (hs : w.Stands p layout a below) (n : Nat) :
    w.Stands p layout { a with position := n } below where
  stacked := hs.stacked.top rfl fun hseat => hseat.top rfl rfl rfl hseat.temps
  sp := hs.sp

theorem Machine.Body.Hosts.mem_of_current (ha : a.body.Hosts p layout around head) {st : Ir.Stmt}
    (hst : a.current? = some st) : st ∈ a.body.chunk.stmts := by
  rw [Activation.current?, ha.code, List.getElem?_toArray] at hst
  exact List.mem_of_getElem? hst

/-- A value that is moved into a temporary is what the temporary stands for. -/
theorem Seated.set (hseat : Seated p layout m a below around head ups) {t : Temp} {src : Ir.Expr}
    {v : Word} (hst : Ir.Stmt.move (.temp t) src ∈ a.body.chunk.stmts)
    (hv : ∀ r, Ir.Plays ⟨p, layout, head :: around, a.body.chunk.frame⟩ a.body.chunk.stmts src r →
      r.Holds ups ((a :: below).map (·.savedSp)) v) :
    Seated p layout m { a with temps := a.temps.insert t v } below around head ups := by
  have hne : t ≠ a.body.chunk.frame.fp := by
    rintro rfl
    exact hseat.hosts.proper.kept src hst
  refine hseat.top rfl rfl ?_ fun u x r hx hr => ?_
  · exact Table.getElem?_insert_of_ne hne
  · rcases Table.of_getElem?_insert hx with ⟨rfl, rfl⟩ | ⟨-, hx⟩
    · generalize htemp : Ir.Expr.temp t = e at hr
      cases hr with
      | fp =>
        cases htemp
        exact absurd rfl hne
      | set hmem hsrc =>
        cases htemp
        exact hv r (hseat.hosts.proper.once t _ _ hmem hst ▸ hsrc)
      | const | follow | cell | data => cases htemp
    · exact hseat.temps u x r hx hr

theorem Machine.World.Stands.exec (hi : image.Hosts p layout) (hs : w.Stands p layout a below)
    (hc : image.Clear w.sp) {result : Option Word} {st : Ir.Stmt} {target : Option Label}
    (hst : st ∈ a.body.chunk.stmts) (h : exec image w a result st = .ok (w', a', target)) :
    w'.Stands p layout a' below ∧ w'.sp = w.sp := by
  cases done_of_exec h with
  | label | jump | branch | eval => exact ⟨hs, rfl⟩
  | set hv =>
    refine ⟨⟨hs.stacked.top rfl fun hseat => hseat.set hst fun r hr => ?_, hs.sp⟩, rfl⟩
    exact hseat.holds hi hs hc hr hv
  | @store e src addr _ _ haddr =>
    obtain ⟨around, head, ups, hseat⟩ := hs.stacked.seated
    have hcell := (hseat.hosts.proper.code _ hst).stores e src rfl
    have hapart : addr ∉ (a :: below).map (·.savedSp) := hseat.holds hi hs hc hcell haddr
    refine ⟨⟨hs.stacked.congr fun b hb => ?_, hs.sp⟩, rfl⟩
    have hne : addr ≠ b.savedSp := fun heq => hapart (heq ▸ List.mem_map_of_mem hb)
    rw [Memory.load_store, if_neg hne]

/-! ## Returns -/

theorem Machine.Image.Clear.mono {sp sp' : Word} (hc : image.Clear sp) (h : sp.toInt ≤ sp'.toInt) :
    image.Clear sp' :=
  ⟨Int64.le_trans hc.1 (Int64.le_iff_toInt_le.mpr h),
    fun d hd => Int64.lt_of_lt_of_le (hc.2 d hd) (Int64.le_iff_toInt_le.mpr h)⟩

/-- A function that returns leaves its caller in order, with its result at SP. -/
theorem Machine.World.Stands.returned {c : Activation} (hs : w.Stands p layout a (c :: below))
    (result : Word) :
    ({ w with sp := a.savedSp, memory := w.memory.store a.savedSp result } : World).Stands p layout
      c below := by
  have hbelow := hs.stacked.frame_below
  cases hs.stacked with
  | call hseat hfp hroom hrest =>
    refine ⟨hrest.congr fun b hb => ?_, hfp⟩
    have hne : a.savedSp ≠ b.savedSp := by
      intro heq
      have hle := hbelow b hb
      obtain ⟨_, _, hhosts⟩ := hrest.hosts hb
      obtain ⟨hsize, hlocals, harguments⟩ := hhosts.size
      rw [heq] at hle
      omega
    rw [Memory.load_store, if_neg hne]

theorem Machine.Ensues.stands (hi : image.Hosts p layout) {w : World} {a : Activation}
    {target : Option Label} {callers : List Activation} {q : Progress} {s : State}
    (h : Ensues image w a target callers q) : w.Stands p layout a callers → image.Clear w.sp →
      q = .running s → s.world.Stands p layout s.top s.callers := by
  induction h with
  | goes =>
    rintro hs _ ⟨⟩
    exact hs.position _
  | faulted | halted =>
    rintro _ _ ⟨⟩
  | @returned w _ a _ _ _ _ v _ _ hst hexec _ ih =>
    intro hs hc hq
    -- the caller's statement resumes with the result
    have hsp : w.sp.toInt ≤ a.savedSp.toInt := Int.le_of_lt (hs.sp_lt a List.mem_cons_self)
    have hback := hs.returned v
    obtain ⟨_, _, hhosts⟩ := hback.stacked.hosts List.mem_cons_self
    obtain ⟨hs₁, hsp₁⟩ := hback.exec hi (hc.mono hsp) (hhosts.mem_of_current hst) hexec
    refine ih hs₁ ?_ hq
    rw [hsp₁]
    exact hc.mono hsp

/-! ## Calls -/

/-- Arguments are stored at their places and nowhere else. -/
theorem load_storeArgs {sp x : Word} {offsets : List Word} :
    ∀ {m m' : Memory} {vs : List Word}, storeArgs sp m offsets vs = .ok m' →
      (∀ o ∈ offsets, sp.toInt + o.toInt ≠ x.toInt) → m'.load x = m.load x := by
  induction offsets with
  | nil =>
    intro m m' vs h _
    cases h
    rfl
  | cons o offsets ih =>
    intro m m' vs h hne
    cases vs with
    | nil =>
      cases h
      rfl
    | cons v vs =>
      rw [storeArgs] at h
      obtain ⟨addr, haddr, h⟩ := bind_eq_ok h
      have haddrInt := Word.toInt_checkedAdd haddr
      obtain ⟨hfirst, hrest⟩ := List.forall_mem_cons.mp hne
      rw [ih h hrest, Memory.load_store, if_neg]
      rintro rfl
      exact hfirst haddrInt.symm

/-- The arguments of a call leave the frames as they are, and put the frame pointer of a function
around at SP. -/
theorem Machine.World.Stands.arguments (hi : image.Hosts p layout) (hs : w.Stands p layout a below)
    (hc : image.Clear w.sp) (hseat : Seated p layout w.memory a below around head ups)
    {call : Call} {vs : List Word} {m' : Memory} {k : Nat} {os : List Word} {link : Ir.Expr}
    {args : List Ir.Expr} (hoffsets : call.offsets = 0 :: os) (hargs : call.args = link :: args)
    (hlink : Ir.Plays ⟨p, layout, head :: around, a.body.chunk.frame⟩ a.body.chunk.stmts link
      (.link k))
    (hos : ∀ o ∈ os, 8 ≤ o.toInt ∧ o.toInt + 8 ≤ a.body.chunk.frame.arguments.toInt)
    (hvs : evalAll image w.memory a call.args = .ok vs)
    (hstore : storeArgs w.sp w.memory call.offsets vs = .ok m') :
    (∀ b ∈ a :: below, m'.load b.savedSp = w.memory.load b.savedSp) ∧
      ups[k]? = some (m'.load w.sp) := by
  rw [hargs, evalAll] at hvs
  obtain ⟨v, hv, hvs⟩ := bind_eq_ok hvs
  obtain ⟨vs', -, hvs⟩ := bind_eq_ok hvs
  cases hvs
  have hups : ups[k]? = some v := hseat.holds hi hs hc hlink hv
  have hzero : (0 : Word).toInt = 0 := rfl
  rw [hoffsets] at hstore
  constructor
  · intro b hb
    refine load_storeArgs hstore fun o ho => ?_
    have hle := hs.sp_le b hb
    have hlt := hs.sp_lt b hb
    have htop := hs.sp
    have hsize := hseat.hosts.size
    rcases List.mem_cons.mp ho with rfl | ho
    · omega
    · have hbounds := hos o ho
      -- the area for arguments is that of the function that is running
      rcases List.mem_cons.mp hb with rfl | hb
      · omega
      · have hframe := hs.stacked.frame_below b hb
        obtain ⟨_, _, hhosts⟩ := hs.stacked.hosts (List.mem_cons_of_mem _ hb)
        obtain ⟨hsizeB, hlocalsB, hargumentsB⟩ := hhosts.size
        omega
  · rw [storeArgs] at hstore
    obtain ⟨addr, haddr, hstore⟩ := bind_eq_ok hstore
    have haddrInt := Word.toInt_checkedAdd haddr
    obtain rfl : addr = w.sp := Int64.toInt_inj.mp (by omega)
    rw [hups, load_storeArgs hstore fun o ho => ?_, Memory.load_store, if_pos rfl]
    have hbounds := hos o ho
    omega

/-- A function that starts has its frame pointer in a temporary, and nothing else. -/
theorem seated_entered {b : Body} {fp : Word} {level : Nat} (hb : b.Hosts p layout around head)
    (hreached : List.Forall₂ (fun h fp' => latest layout (entered b fp level :: below) h = some fp')
      (head :: around) ups)
    (hlinks : ups.IsChain fun fp fp' => m.load fp = fp') (hfirst : ups[0]? = some fp) :
    Seated p layout m (entered b fp level) below around head ups := by
  refine ⟨hb, hreached, hlinks, Std.ExtTreeMap.getElem?_insert_self, fun t v r hv hr => ?_⟩
  rcases Table.of_getElem?_insert hv with ⟨rfl, rfl⟩ | ⟨-, hv⟩
  · generalize htemp : Ir.Expr.temp b.chunk.frame.fp = e at hr
    cases hr with
    | fp => exact hfirst
    | set hmem =>
      cases htemp
      exact absurd hmem (hb.proper.kept _)
    | const | follow | cell | data => cases htemp
  · simp at hv

/-- A function that is called stands over its caller, and its static link leads to the function
around it. -/
theorem Machine.World.Stands.enter (hi : image.Hosts p layout) (hs : w.Stands p layout a below)
    (hseat : Seated p layout w.memory a below around head ups) {l : Label} {b : Body} {k : Nat}
    {m' : Memory} {level : Nat} (hb : image.bodies[l]? = some b)
    (hadmits : Nest.Admits ⟨p, layout, head :: around, a.body.chunk.frame⟩ l k)
    (hload : ∀ b ∈ a :: below, m'.load b.savedSp = w.memory.load b.savedSp)
    (hlink : ups[k]? = some (m'.load w.sp))
    (h : Machine.enter { w with memory := m' } b level = .ok (w', a')) :
    w'.Stands p layout a' (a :: below) := by
  obtain ⟨hlabel, around', head', hhosts⟩ := hi.bodies l b hb
  obtain ⟨e, he, hf⟩ := hhosts.item
  obtain ⟨hroom, haround⟩ := hadmits.2 around' head' e _ he hf.frame hlabel
  unfold Machine.enter at h
  obtain ⟨sp, hsp, h⟩ := bind_eq_ok h
  cases h
  have hold := hseat.congr hload
  -- the frame pointers of the functions around it are those that its link leads along
  obtain ⟨rest, hrest, hchain, hfirst⟩ : ∃ rest : List Word,
      List.Forall₂ (fun h fp => latest layout (a :: below) h = some fp) around' rest ∧
      (rest.IsChain fun fp fp' => m'.load fp = fp') ∧
      ∀ fp ∈ rest.head?, m'.load w.sp = fp := by
    rcases haround with rfl | rfl
    · exact ⟨[], .nil, .nil, fun fp hfp => nomatch hfp⟩
    · refine ⟨ups.drop k, List.forall₂_drop k hold.reached, hold.links.drop k, fun fp hfp => ?_⟩
      rw [Option.mem_def, List.head?_drop, hlink] at hfp
      exact Option.some.inj hfp
  have hnew : Seated p layout m' (entered b w.sp level) (a :: below) around' head'
      (w.sp :: rest) := by
    refine seated_entered hhosts (.cons (latest_self hhosts.runs) ?_) (hchain.cons hfirst) rfl
    refine List.forall₂_iff_get.mpr ⟨hrest.length_eq, fun i hi₁ hi₂ => ?_⟩
    rw [latest_cons (hhosts.not_runs hi (List.get_mem _ _))]
    exact (List.forall₂_iff_get.mp hrest).2 i hi₁ hi₂
  exact ⟨.call hnew hs.sp hroom (hs.stacked.congr hload), Word.toInt_checkedSub hsp⟩

theorem Machine.World.Stands.advance (hi : image.Hosts p layout) {callDepth : Nat} {s s' : State}
    (hs : s.world.Stands p layout s.top s.callers) (hc : image.Clear s.world.sp)
    (h : Machine.advance image callDepth s = .running s') :
    s'.world.Stands p layout s'.top s'.callers := by
  obtain ⟨around, head, ups, hseat⟩ := hs.stacked.seated
  have hcases := advances image callDepth s
  generalize hq : Machine.advance image callDepth s = q at hcases
  rw [h] at hq
  cases hcases with
  | faulted => cases hq
  | plain hst _ hexec =>
    obtain ⟨hs₁, hsp₁⟩ := hs.exec hi hc (hseat.hosts.mem_of_current hst) hexec
    exact (settle_ensues ..).stands hi hs₁ (hsp₁ ▸ hc) hq.symm
  | @provided st call _ _ w₁ _ v _ _ hst hcall hargs hstore _ hrun hexec =>
    have hmem := hseat.hosts.mem_of_current hst
    obtain ⟨k, os, link, args, hoffsets, hargs', hlink, -, hos⟩ :=
      (hseat.hosts.proper.code st hmem).calls call hcall
    obtain ⟨hload, -⟩ := hs.arguments hi hc hseat hoffsets hargs' hlink hos hargs hstore
    -- the result of what the machine provides is at SP, below all frames
    obtain ⟨hmemory, hsp⟩ := builtin_keeps hrun
    have hs₁ : ({ w₁ with memory := w₁.memory.store w₁.sp v } : World).Stands p layout
        s.top s.callers := by
      refine ⟨hs.stacked.congr fun b hb => ?_, hsp ▸ hs.sp⟩
      have hne : w₁.sp ≠ b.savedSp := by
        intro heq
        have hlt := hs.sp_lt b hb
        rw [← heq, hsp] at hlt
        exact Int.lt_irrefl _ hlt
      rw [Memory.load_store, if_neg hne, hmemory]
      exact hload b hb
    have hc₁ : image.Clear w₁.sp := hsp ▸ hc
    obtain ⟨hs₂, hsp₂⟩ := hs₁.exec hi hc₁ hmem hexec
    exact (settle_ensues ..).stands hi hs₂ (hsp₂ ▸ hc₁) hq.symm
  | @entered st call _ _ _ _ _ hst hcall hargs hstore hbody _ henter =>
    obtain ⟨k, os, link, args, hoffsets, hargs', hlink, hadmits, hos⟩ :=
      (hseat.hosts.proper.code st (hseat.hosts.mem_of_current hst)).calls call hcall
    obtain ⟨hload, hup⟩ := hs.arguments hi hc hseat hoffsets hargs' hlink hos hargs hstore
    cases hq
    exact hs.enter hi hseat hbody hadmits hload hup henter

/-! ## Runs -/

theorem Machine.World.Stands.after (hi : image.Hosts p layout) {callDepth n : Nat} :
    ∀ {s s' : State}, s.world.Stands p layout s.top s.callers →
      (∀ i ≤ n, ∀ t, Machine.after image callDepth i (.running s) = .running t →
        image.Clear t.world.sp) →
      Machine.after image callDepth n (.running s) = .running s' →
      s'.world.Stands p layout s'.top s'.callers := by
  induction n with
  | zero =>
    intro s s' hs _ h
    cases h
    exact hs
  | succ n ih =>
    intro s s' hs hc h
    obtain ⟨s₁, hadv, h⟩ := exists_of_after_succ h
    refine ih (hs.advance hi (hc 0 (Nat.zero_le _) s rfl) hadv) (fun i hin t ht => ?_) h
    exact hc (i + 1) (Nat.succ_le_succ hin) t (by rw [after_succ, hadv, ht])

/-! ## Links -/

/-- The static link of a function leads to the function it is declared in. -/
theorem Seated.link (hi : image.Hosts p layout) (hs : Seated p layout m a below around head ups)
    {parent : Head} (hparent : parent ∈ around.head?) :
    latest layout below parent = some (m.load a.savedSp) := by
  obtain ⟨rest, rfl⟩ : ∃ rest, around = parent :: rest := by
    cases around with
    | nil => cases hparent
    | cons x rest =>
      cases hparent
      exact ⟨rest, rfl⟩
  have hlinks := hs.links
  cases hs.reached with
  | cons hown hreached =>
    cases hreached with
    | cons hup _ =>
      rw [latest_self hs.hosts.runs] at hown
      rw [latest_cons (hs.hosts.not_runs hi List.mem_cons_self)] at hup
      rw [hup, Option.some.inj hown, (List.isChain_cons_cons.mp hlinks).1]

/-- Code that follows links comes to the frame pointers of the functions around. -/
theorem Seated.eval_follow (hs : Seated p layout m a below around head ups) {k : Nat} :
    ∀ {outer : Head}, (head :: around)[k]? = some outer →
      ∃ fp, latest layout (a :: below) outer = some fp ∧
        eval image m a none (Lowering.follow k (.temp a.body.chunk.frame.fp)) = .ok fp := by
  -- what the code comes to is told by the list of frame pointers alone
  have heval : ∀ {k : Nat} (hk : k < ups.length),
      eval image m a none (Lowering.follow k (.temp a.body.chunk.frame.fp)) = .ok ups[k] := by
    intro k
    induction k with
    | zero =>
      intro hk
      rw [Lowering.follow, eval, Activation.temp, hs.fp]
      cases hs.reached with
      | cons hown _ =>
        rw [latest_self hs.hosts.runs] at hown
        exact congrArg Except.ok (Option.some.inj hown)
    | succ k ih =>
      intro hk
      rw [Lowering.follow_succ, eval, ih (Nat.lt_of_succ_lt hk)]
      exact congrArg Except.ok (hs.links.getElem k hk)
  intro outer houter
  have hk : k < ups.length := hs.reached.length_eq ▸ (List.getElem?_eq_some_iff.mp houter).1
  exact ⟨ups[k], hs.getElem?_ups (List.getElem?_eq_getElem hk) houter, heval hk⟩

end Steps

/-- In a state, static links lead to the functions around: each function that runs and is declared in
another one has at its frame pointer that of the latest activation of the other one below it, and
code that follows `k` links comes to the frame pointer of the latest activation of the `k`th function
around. -/
def Machine.State.Linked (p : Program) (layout : Layout) (image : Image) (t : State) : Prop :=
  ∀ above a below, t.top :: t.callers = above ++ a :: below →
    ∃ around head body, Item.function around head (some body) ∈ p.items ∧ a.runs layout head ∧
      (∀ parent ∈ around.head?,
        latest layout below parent = some (t.world.memory.load a.savedSp)) ∧
      ∀ k outer, (head :: around)[k]? = some outer →
        ∃ fp, latest layout (a :: below) outer = some fp ∧
          eval image t.world.memory a none
            (Lowering.follow k (.temp a.body.chunk.frame.fp)) = .ok fp

/-- The link of the function that is running leads to the function around it. -/
def Machine.State.isLinked (p : Program) (layout : Layout) (t : State) : Bool :=
  p.items.any fun
    | .function around head (some _) => t.top.runs layout head && around.head?.all fun parent =>
      latest layout t.callers parent == some (t.world.memory.load t.top.savedSp)
    | _ => false

theorem Machine.State.Linked.isLinked {p : Program} {layout : Layout} {image : Image} {t : State}
    (h : t.Linked p layout image) : t.isLinked p layout := by
  obtain ⟨around, head, body, hitem, hruns, hlink, -⟩ := h [] t.top t.callers rfl
  refine List.any_eq_true.mpr ⟨_, hitem, ?_⟩
  simp only [hruns, Bool.true_and, Option.all_eq_true, beq_iff_eq]
  exact hlink

/-! ## Deciding what runs do -/

instance Machine.Image.decidableClear (image : Image) (sp : Word) : Decidable (image.Clear sp) :=
  inferInstanceAs (Decidable (_ ∧ _))

instance Machine.Progress.decidableForall (q : Progress) (P : State → Prop) [DecidablePred P] :
    Decidable (∀ t, q = .running t → P t) :=
  match q with
  | .running s => decidable_of_iff (P s) ⟨fun h _ ht => Progress.running.inj ht ▸ h, fun h => h s rfl⟩
  | .halted .. | .faulted _ => isTrue fun _ ht => nomatch ht

instance Machine.Progress.decidableExists (q : Progress) (P : State → Prop) [DecidablePred P] :
    Decidable (∃ t, q = .running t ∧ P t) :=
  match q with
  | .running s => decidable_of_iff (P s)
      ⟨fun h => ⟨s, rfl, h⟩, fun ⟨_, ht, h⟩ => Progress.running.inj ht ▸ h⟩
  | .halted .. | .faulted _ => isFalse fun ⟨_, ht, _⟩ => nomatch ht

/-! ## Programs -/

namespace Typed.Program

variable {p : Program} {s₀ s : Session} {c : Compiled}

/-- The machine has the functions of a compiled program. -/
theorem Lexical.hosts (hp : p.Lexical) (hw : p.WellNamed) (h : p.compile s₀ = .ok c s)
    {image : Image} (himage : image.bodies = loadedBodies c.chunks) :
    image.Hosts p c.layout where
  bodies l b hb := by
    rw [himage] at hb
    obtain ⟨around, head, e, hitem, hlabel, hf, hproper, hcode⟩ := hp.bodies hw h hb
    exact ⟨hlabel, around, head, ⟨e, hitem, hf⟩, hproper, congrArg Body.code hcode⟩
  unique := item_of_label hw h

/-- A function that is found by a name is at top level. -/
theorem Lexical.around_eq_nil (hp : p.Lexical) (h : p.compile s₀ = .ok c s) {around : List Head}
    {head : Head} {body : Option Expr} (hitem : Item.function around head body ∈ p.items)
    {f : Frame} (hf : c.layout.frames[head.id]? = some f) {entry : String}
    (hentry : s.names.lookup entry = some f.label) : around = [] := by
  obtain ⟨s₁, s₂, hlayout, hlower, hchunks⟩ := compile_ok h
  have hle : s₁.names ≤ s.names :=
    Names.le_trans (Lowering.functions_lowers hlower).change.names (chunksOf hchunks).names
  have hmade := Layouting.made_of_frame hlayout hp.functions hitem hf
  exact List.length_eq_zero_iff.mp ((hmade.mono hle).lookup_iff.mp hentry).1

/-- The function that a run starts with stands alone, and no function is around it. -/
theorem Lexical.initial_stands (hp : p.Lexical) (hw : p.WellNamed) (h : p.compile s₀ = .ok c s)
    {entry : String} {input : List UInt8} {image : Image} {first : State}
    (hfirst : initial s.names c.chunks entry input = .ok (image, first)) :
    image.Hosts p c.layout ∧ first.world.Stands p c.layout first.top first.callers := by
  rw [initial_eq] at hfirst
  split at hfirst
  · cases hfirst
  · next data m _ =>
    split at hfirst
    · cases hfirst
    · next body hentry =>
      split at hfirst
      · cases hfirst
      · next sp hsp =>
        cases hfirst
        obtain ⟨l, hl, hb⟩ := Option.bind_eq_some_iff.mp hentry
        obtain ⟨around, head, e, hitem, hlabel, hf, hproper, hcode⟩ := hp.bodies hw h hb
        obtain rfl : around = [] := hp.around_eq_nil h hitem hf.frame (hlabel ▸ hl)
        have hhosts : body.Hosts p c.layout [] head :=
          ⟨⟨e, hitem, hf⟩, hproper, congrArg Body.code hcode⟩
        have hseat : Seated p c.layout (m.store stackStart 0) (entered body stackStart 1) [] [] head
            [stackStart] :=
          seated_entered hhosts (.cons (latest_self hhosts.runs) .nil) (.singleton _) rfl
        exact ⟨hp.hosts hw h rfl, .entry hseat rfl, Word.toInt_checkedSub hsp⟩

/-- Static links lead to the functions around in every state of a run whose stack has not grown into
the heap or the data. -/
theorem static_links (h : p.compile s₀ = .ok c s) (hp : p.Lexical) (hw : p.WellNamed)
    {entry : String} {input : List UInt8} {image : Image} {first : State}
    (hfirst : initial s.names c.chunks entry input = .ok (image, first)) {callDepth n : Nat}
    (hclear : ∀ i ≤ n, ∀ t, after image callDepth i (.running first) = .running t →
      image.Clear t.world.sp)
    {t : State} (ht : after image callDepth n (.running first) = .running t) :
    t.Linked p c.layout image := by
  intro above a below hsplit
  obtain ⟨hi, hs⟩ := hp.initial_stands hw h hfirst
  have hstacked := (hs.after hi hclear ht).stacked
  rw [hsplit] at hstacked
  obtain ⟨around, head, ups, hseat⟩ := hstacked.suffix.seated
  obtain ⟨e, hitem, -⟩ := hseat.hosts.item
  exact ⟨around, head, e, hitem, hseat.hosts.runs, fun parent hparent => hseat.link hi hparent,
    fun k outer hk => hseat.eval_follow hk⟩

/-- A function inside a function inside `main`: `g` calls the function around it again, so that each
of the two runs twice. -/
def climbing : Program where
  decls := [.fn ⟨⟨0⟩, "main", [], .int, {}⟩ (.scope (.value 0)
    (.block (.value 1) [
      .assign ⟨⟨2⟩, {}⟩ (.name (.place 3) ⟨1⟩) (.atom (.value 4) (.int 40)),
      .eval ⟨⟨5⟩, {}⟩ (.call (.value 6) ⟨2⟩ [.atom (.value 7) (.int 1)])])
    [.var ⟨⟨1⟩, "x", .int, {}⟩,
      .fn ⟨⟨2⟩, "f", [⟨⟨3⟩, "n", .int⟩], .int, {}⟩ (.scope (.value 8) (.call (.value 9) ⟨4⟩ [])
        [.fn ⟨⟨4⟩, "g", [], .int, {}⟩ (.block (.value 10) [
          .cond ⟨⟨11⟩, {}⟩ (.name (.place 12) ⟨3⟩)
            [.assign ⟨⟨13⟩, {}⟩ (.name (.place 14) ⟨1⟩)
              (.call (.value 15) ⟨2⟩ [.atom (.value 16) (.int 0)])] [],
          .eval ⟨⟨17⟩, {}⟩ (.name (.place 18) ⟨1⟩)])])])]

theorem climbing_linked :
    climbing.Lexical ∧ climbing.WellNamed ∧ ∃ c s, climbing.compile {} = .ok c s ∧
      ∃ start : Image × State, initial s.names c.chunks "_main" [] = .ok start ∧
        (∀ i ≤ 32, ∀ t, after start.1 10 i (.running start.2) = .running t →
          start.1.Clear t.world.sp) ∧
        ∃ t, after start.1 10 32 (.running start.2) = .running t ∧ t.callers.length = 4 ∧
          t.Linked climbing c.layout start.1 := by
  have hp : climbing.Lexical :=
    ⟨⟨⟨by decide, by decide⟩, by decide⟩, by decide, by decide, by decide, by decide⟩
  have hw : climbing.WellNamed := ⟨by decide, by decide, by simp [climbing]⟩
  have hrun : ∃ c s, climbing.compile {} = .ok c s ∧
      ∃ start : Image × State, initial s.names c.chunks "_main" [] = .ok start ∧
        (∀ i ≤ 32, ∀ t, after start.1 10 i (.running start.2) = .running t →
          start.1.Clear t.world.sp) ∧
        ∃ t, after start.1 10 32 (.running start.2) = .running t ∧ t.callers.length = 4 := by
    decide +kernel
  obtain ⟨c, s, hc, start, hstart, hclear, t, ht, hlength⟩ := hrun
  exact ⟨hp, hw, c, s, hc, start, hstart, hclear, t, ht, hlength,
    static_links hc hp hw hstart hclear ht⟩

/-- Two functions of one name: the call in `g` refers to the first and reaches the second, which
stores to a parameter that was never passed. -/
def mistaken : Program where
  decls := [
    .fn ⟨⟨10⟩, "f", [], .int, {}⟩ (.atom (.value 12) (.int 0)),
    .fn ⟨⟨11⟩, "f", [⟨⟨101⟩, "a", .int⟩, ⟨⟨102⟩, "b", .int⟩, ⟨⟨103⟩, "c", .int⟩], .int, {}⟩
      (.block (.value 18) [
        .assign ⟨⟨15⟩, {}⟩ (.name (.place 13) ⟨103⟩) (.atom (.value 14) (.int 0)),
        .eval ⟨⟨17⟩, {}⟩ (.atom (.value 16) (.int 0))]),
    .fn ⟨⟨12⟩, "main", [], .int, {}⟩ (.scope (.value 11)
      (.block (.value 10) [
        .assign ⟨⟨7⟩, {}⟩ (.name (.place 5) ⟨100⟩) (.atom (.value 6) (.int 7)),
        .eval ⟨⟨9⟩, {}⟩ (.call (.value 8) ⟨13⟩ [])])
      [.var ⟨⟨100⟩, "x", .int, {}⟩,
        .fn ⟨⟨13⟩, "g", [], .int, {}⟩ (.block (.value 4) [
          .eval ⟨⟨1⟩, {}⟩ (.call (.value 0) ⟨10⟩ []),
          .eval ⟨⟨3⟩, {}⟩ (.name (.place 2) ⟨100⟩)])])]

/-- A frame that reaches down to the data: `d` has its static link where `x` is, so that an
assignment to `x` turns the next one, to a variable of `main`, into a store at the frame pointer of
`g`. -/
def overgrown : Program where
  decls := [.var ⟨⟨1⟩, "x", .int, {}⟩,
    .fn ⟨⟨12⟩, "main", [], .int, {}⟩ (.scope (.value 22)
      (.block (.value 21) [
        .assign ⟨⟨18⟩, {}⟩ (.name (.place 16) ⟨100⟩) (.atom (.value 17) (.int 7)),
        .eval ⟨⟨20⟩, {}⟩ (.call (.value 19) ⟨13⟩ [])])
      [.var ⟨⟨100⟩, "y", .int, {}⟩,
        .fn ⟨⟨14⟩, "d", [], .int, {}⟩ (.block (.value 8) [
          .assign ⟨⟨2⟩, {}⟩ (.name (.place 0) ⟨1⟩) (.atom (.value 1) (.int 6917529027641081832)),
          .assign ⟨⟨5⟩, {}⟩ (.name (.place 3) ⟨100⟩) (.atom (.value 4) (.int 5)),
          .eval ⟨⟨7⟩, {}⟩ (.atom (.value 6) (.int 0))]),
        .fn ⟨⟨15⟩, "big", [], .int, {}⟩ (.scope (.value 10) (.call (.value 9) ⟨14⟩ [])
          [.var ⟨⟨101⟩, "arr", .array .int 576460752303423478, {}⟩]),
        .fn ⟨⟨13⟩, "g", [], .int, {}⟩ (.block (.value 15) [
          .eval ⟨⟨12⟩, {}⟩ (.call (.value 11) ⟨15⟩ []),
          .eval ⟨⟨14⟩, {}⟩ (.name (.place 13) ⟨100⟩)])])]

/-- Names that are not their own break static links, and so does a stack that was not clear before,
even if it is again. -/
theorem mistaken_overgrown_not_linked :
    (mistaken.Lexical ∧ ∃ c s, mistaken.compile {} = .ok c s ∧
      ∃ start : Image × State, initial s.names c.chunks "_main" [] = .ok start ∧
        (∀ i ≤ 20, ∀ t, after start.1 10 i (.running start.2) = .running t →
          start.1.Clear t.world.sp) ∧
        ∃ t, after start.1 10 20 (.running start.2) = .running t ∧
          ¬ t.Linked mistaken c.layout start.1) ∧
    overgrown.Lexical ∧ overgrown.WellNamed ∧ ∃ c s, overgrown.compile {} = .ok c s ∧
      ∃ start : Image × State, initial s.names c.chunks "_main" [] = .ok start ∧
        ∃ t, after start.1 10 31 (.running start.2) = .running t ∧ start.1.Clear t.world.sp ∧
          ¬ t.Linked overgrown c.layout start.1 := by
  have hbroken : ∀ {p : Program} {layout : Layout} {image : Image} {t : State},
      t.isLinked p layout = false → ¬ t.Linked p layout image := fun hno hlinked =>
    Bool.false_ne_true (hno ▸ hlinked.isLinked)
  constructor
  · have hrun : ∃ c s, mistaken.compile {} = .ok c s ∧
        ∃ start : Image × State, initial s.names c.chunks "_main" [] = .ok start ∧
          (∀ i ≤ 20, ∀ t, after start.1 10 i (.running start.2) = .running t →
            start.1.Clear t.world.sp) ∧
          ∃ t, after start.1 10 20 (.running start.2) = .running t ∧
            t.isLinked mistaken c.layout = false := by
      decide +kernel
    obtain ⟨c, s, hc, start, hstart, hclear, t, ht, hno⟩ := hrun
    exact ⟨⟨⟨⟨by decide, by decide⟩, by decide⟩, by decide, by decide, by decide, by decide⟩, c, s, hc,
      start, hstart, hclear, t, ht, hbroken hno⟩
  · have hrun : ∃ c s, overgrown.compile {} = .ok c s ∧
        ∃ start : Image × State, initial s.names c.chunks "_main" [] = .ok start ∧
          ∃ t, after start.1 10 31 (.running start.2) = .running t ∧ start.1.Clear t.world.sp ∧
            t.isLinked overgrown c.layout = false := by
      decide +kernel
    obtain ⟨c, s, hc, start, hstart, t, ht, hclear, hno⟩ := hrun
    exact ⟨⟨⟨⟨by decide, by decide⟩, by decide⟩, by decide, by decide, by decide, by decide⟩,
      ⟨by decide, by decide, by simp [overgrown]⟩, c, s, hc, start, hstart, t, ht, hclear,
      hbroken hno⟩

end Typed.Program

end MmixBackend
