import MmixBackend.Proofs.Execution

/-!
# Selection keeps the meaning of statements

The instructions selected for a canonical chunk, executed over temporaries, do what the machine does
with its statements: after every statement the temporaries and what functions share are the same,
and the next instruction is the first one of the next statement.

A branch has one label to go to and otherwise falls through.  That this is right depends on the
chunk: the label that the branch goes to on zero has to be the statement behind it.
-/

namespace MmixBackend

open Machine Build

variable {t : Temp}

namespace Selection

/-! ## Statements -/

section

variable {S : Surroundings} {window : Nat} {loc : Location} {image : Image} {a : Activation}
  {w : World} {r : Word}

variable {q : World × Activation × Option Label} {st : Ir.Stmt} {result : Option Word}

/-- A statement takes one value and does the rest by itself. -/
theorem exists_takes {e : Ir.Expr} {calls : Label → World → World → Prop}
    {events : List (Label × World)} (g : World → Word → World × Activation × Option Label)
    (hcall : Call.inStmt st = Call.inExpr e)
    (hexec : ∀ w result, exec image w a result st = .ok q →
      ∃ v, eval image w.memory a result e = .ok v ∧ q = g w v)
    (h : Performs image calls w a st events q) :
    ∃ w' v, Takes image calls w a e events w' v ∧ q = g w' v := by
  cases h with
  | plain hnone hq =>
    obtain ⟨v, hv, rfl⟩ := hexec w none hq
    exact ⟨w, v, .plain (hcall ▸ hnone) hv, rfl⟩
  | @call call vs m w' _ hsome hargs hstore hcalls hq =>
    obtain ⟨v, hv, rfl⟩ := hexec w' _ hq
    exact ⟨w', v, .call (hcall ▸ hsome) hargs hstore hcalls hv, rfl⟩

theorem exec_eval {e : Ir.Expr} (h : exec image w a result (.eval e) = .ok q) :
    ∃ v, eval image w.memory a result e = .ok v ∧ q = (w, a, none) := by
  obtain ⟨v, hv, h⟩ := bind_eq_ok h
  cases h
  exact ⟨v, hv, rfl⟩

theorem exec_branch {e : Ir.Expr} {pos neg : Label}
    (h : exec image w a result (.branch e pos neg) = .ok q) :
    ∃ v, eval image w.memory a result e = .ok v ∧ q = (w, a, some (if v ≠ 0 then pos else neg)) := by
  obtain ⟨v, hv, h⟩ := bind_eq_ok h
  cases h
  exact ⟨v, hv, rfl⟩

theorem exec_keep {e : Ir.Expr} (h : exec image w a result (.move (.temp t) e) = .ok q) :
    ∃ v, eval image w.memory a result e = .ok v ∧
      q = (w, { a with temps := a.temps.insert t v }, none) := by
  obtain ⟨v, hv, h⟩ := bind_eq_ok h
  cases h
  exact ⟨v, hv, rfl⟩

theorem exec_fetch {e : Ir.Expr} (h : exec image w a result (.move (.temp t) (.mem e)) = .ok q) :
    ∃ v, eval image w.memory a result e = .ok v ∧
      q = (w, { a with temps := a.temps.insert t (w.memory.load v) }, none) := by
  obtain ⟨v, hv, rfl⟩ := exec_keep h
  obtain ⟨addr, haddr, hv⟩ := bind_eq_ok hv
  cases hv
  exact ⟨addr, haddr, rfl⟩

theorem Agrees.insert {n : Names} {σ : Temp → Word} (h : Agrees a n σ) (t : Temp) (v : Word) :
    Agrees { a with temps := a.temps.insert t v } n (writeAll σ [t] [v]) := by
  intro u hu v' hv'
  have hset := sets_writeAll σ t v
  by_cases hut : u = t
  · subst hut
    rw [getElem?_insert_temp] at hv'
    exact hset.1.trans (Option.some.inj hv')
  · rw [hset.2 u hut]
    exact h u hu v' (Table.getElem?_insert_of_ne (Ne.symm hut) ▸ hv')

/-- Where code leads that stands for a statement: what functions share and the temporaries are as
the statement leaves them. -/
structure Reflects (n : Names) (q : World × Activation × Option Label) (p : Successor)
    (y : Moment Temp Word Chip) : Prop where
  place : y.place = p
  world : y.state.world = q.1
  values : Agrees q.2.1 n y.values

theorem getElem?_middle (pre code post : List Instr) (instr : Instr) :
    (pre ++ (code ++ instr :: post))[pre.length + code.length]? = some instr := by
  rw [← List.append_assoc, ← List.length_append, List.getElem?_append_right (Nat.le_refl _)]
  simp

section

variable {c : Code} {n : Names} {e : Ir.Expr} {s s' : Session} {pre code post : List Instr}
  {u : Temp} {σ : Temp → Word} {events : List (Label × World)} {p : Successor} {w' : World}
  {v v' : Word} (he : e.isValue) (hcode : expr window loc e s = .ok (code, u) s')
  (hn : n ≤ s.names) (hold : ∀ t ∈ e.temps, n.HasTemp t) (hσ : Agrees a n σ)
  (hdata : ∀ l addr, image.data[l]? = some addr → S.data (s.names.textOf l) = addr)
  (htakes : Takes image S.calls w a e events w' v)

include he hcode hn hold hσ hdata htakes

/-- A value that is computed and then kept in a temporary. -/
theorem keep_runs {op : Op} (hc : c.instrs = pre ++ (code ++ [.move op t u] ++ post))
    (hop : ∀ r', op.compute S.data [v] ⟨r', w'⟩ = some ([v'], ⟨r', w'⟩))
    (hp : p = .instr (pre.length + (code ++ [Instr.move op t u]).length)) :
    ∃ y, c.Runs S ⟨.instr pre.length, σ, ⟨r, w⟩⟩ events y ∧
      Reflects n (w', { a with temps := a.temps.insert t v' }, none) p y := by
  obtain ⟨σ', r', hstraight, hv, hσ'⟩ := expr_computes (r := r) he hcode hn hold hσ hdata htakes
  have hmove : Straight S [.move op t u] σ' ⟨r', w'⟩ [] (writeAll σ' [t] [v']) ⟨r', w'⟩ := by
    refine straight_act ?_
    show (op.compute S.data [σ' u] ⟨r', w'⟩).map _ = _
    rw [hv, hop r']
    rfl
  have hruns := (hstraight.append hmove).runs pre post hc
  rw [List.append_nil] at hruns
  exact ⟨_, hruns, hp.symm, rfl, (hσ.congr hn hσ').insert t v'⟩

/-- A branch goes to its first label, or on zero falls through. -/
theorem branch_runs {name : String} {pos neg : Label}
    (hc : c.instrs = pre ++ (code ++ [.oper (.branch name) [u] [] [pos, neg]] ++ post))
    (hgo : v ≠ 0 → c.target? (Code.labelsFrom 0 ∅ c.instrs) pos = some p)
    (hfall : v = 0 → p = .instr (pre.length + code.length + 1)) :
    ∃ y, c.Runs S ⟨.instr pre.length, σ, ⟨r, w⟩⟩ events y ∧
      Reflects n (w', a, some (if v ≠ 0 then pos else neg)) p y := by
  obtain ⟨σ', r', hstraight, hv, hσ'⟩ := expr_computes (r := r) he hcode hn hold hσ hdata htakes
  rw [List.append_assoc] at hc
  have hruns := hstraight.runs pre _ hc
  have hinstr : c.instrs[pre.length + code.length]? =
      some (.oper (.branch name) [u] [] [pos, neg]) := by
    rw [hc]
    exact getElem?_middle pre code post _
  have hplace : c.next? (pre.length + code.length) (if v ≠ 0 then some pos else none) = some p := by
    by_cases hz : v = 0
    · rw [if_neg (not_not.mpr hz), hfall hz]
      rfl
    · rw [if_pos hz]
      exact hgo hz
  have hstep : c.Goes S ⟨.instr (pre.length + code.length), σ', ⟨r', w'⟩⟩ []
      ⟨p, σ', ⟨r', w'⟩⟩ := by
    refine Code.Goes.act (e := ⟨[], ⟨r', w'⟩, if v ≠ 0 then some pos else none⟩) hinstr ?_ hplace
    rw [← hv]
    rfl
  have hall := hruns.trans (.step hstep .stop)
  rw [List.append_nil, List.append_nil] at hall
  exact ⟨_, hall, rfl, rfl, hσ.congr hn hσ'⟩

end

/-- The instructions of a canonical statement do what the statement does.  `p` is where the statement
leads: behind its instructions, or where the label goes. -/
theorem stmt_runs {c : Code} {n : Names} {s s' : Session} {pre block post : List Instr}
    {σ : Temp → Word} {events : List (Label × World)} {p : Successor}
    (hc : c.instrs = pre ++ (block ++ post)) (hst : st.isCanonical)
    (h : stmt window loc st s = .ok block s') (hn : n ≤ s.names)
    (hold : ∀ t ∈ st.temps, n.HasTemp t) (hσ : Agrees a n σ)
    (hdata : ∀ l addr, image.data[l]? = some addr → S.data (s.names.textOf l) = addr)
    (hperf : Performs image S.calls w a st events q)
    (hnext : q.2.2 = none → p = .instr (pre.length + block.length))
    (hgo : ∀ l, q.2.2 = some l → c.target? (Code.labelsFrom 0 ∅ c.instrs) l = some p)
    (hfall : ∀ e pos neg, st = .branch e pos neg → q.2.2 = some neg →
      p = .instr (pre.length + block.length)) :
    ∃ y, c.Runs S ⟨.instr pre.length, σ, ⟨r, w⟩⟩ events y ∧ Reflects n q p y := by
  cases st with
  | seq => cases hst
  | label l =>
    simp only [stmt, pure_ok] at h
    obtain ⟨rfl, rfl⟩ := h
    cases hperf with
    | call hcall => cases hcall
    | plain _ hexec =>
      cases hexec
      exact ⟨_, Straight.runs (straight_act rfl) pre post hc, (hnext rfl).symm, rfl, hσ⟩
  | jump l =>
    simp only [stmt, bind_ok, textOf_ok, pure_ok] at h
    obtain ⟨_, _, ⟨rfl, rfl⟩, rfl, rfl⟩ := h
    cases hperf with
    | call hcall => cases hcall
    | plain _ hexec =>
      cases hexec
      have hinstr : c.instrs[pre.length]? =
          some (.oper (.jump (s'.names.textOf l)) [] [] [l]) := by
        rw [hc]
        exact getElem?_middle pre [] post _
      exact ⟨_, .step (.act hinstr rfl (hgo l rfl)) .stop, rfl, rfl, hσ⟩
  | eval e =>
    simp only [stmt, bind_ok, pure_ok, Prod.exists] at h
    obtain ⟨code, t, s', hcode, rfl, rfl⟩ := h
    obtain ⟨w', v, htakes, rfl⟩ := exists_takes (fun w _ => (w, a, none)) rfl
      (fun _ _ => exec_eval) hperf
    obtain ⟨σ', r', hstraight, -, hσ'⟩ := expr_computes (r := r) hst hcode hn hold hσ hdata htakes
    exact ⟨_, hstraight.runs pre post hc, (hnext rfl).symm, rfl, hσ.congr hn hσ'⟩
  | branch e pos neg =>
    simp only [stmt, bind_ok, textOf_ok, pure_ok, Prod.exists] at h
    obtain ⟨code, u, s', hcode, _, _, ⟨rfl, rfl⟩, rfl, rfl⟩ := h
    obtain ⟨w', v, htakes, rfl⟩ := exists_takes
      (fun w v => (w, a, some (if v ≠ 0 then pos else neg))) rfl (fun _ _ => exec_branch) hperf
    refine branch_runs hst hcode hn hold hσ hdata htakes hc (fun hz => hgo pos ?_) fun hz => ?_
    · rw [if_pos hz]
    · have hp := hfall e pos neg rfl (by rw [if_neg (not_not.mpr hz)])
      rw [hp, List.length_append, ← Nat.add_assoc]
      rfl
  | move dst src =>
    cases dst with
    | const | name | binary | unary | call | after => cases hst
    | mem addr =>
      rw [Ir.Stmt.isCanonical, Bool.and_eq_true] at hst
      obtain ⟨haddr, hsrc⟩ := hst
      cases addr with
      | const | name | mem | binary | unary | call | after => cases haddr
      | temp t =>
        cases src with
        | const | name | mem | binary | unary | call | after => cases hsrc
        | temp u =>
          obtain rfl : block = [.oper .store [u, t] [] []] := by
            simp only [stmt, move, expr, bind_ok, pure_ok] at h
            obtain ⟨_, _, ⟨rfl, -⟩, _, _, ⟨rfl, -⟩, rfl, -⟩ := h
            rfl
          cases hperf with
          | call hcall => cases hcall
          | plain _ hexec =>
            obtain ⟨v, hv, hexec⟩ := bind_eq_ok hexec
            obtain ⟨addr, haddr, hexec⟩ := bind_eq_ok hexec
            cases hexec
            have ht : σ t = addr :=
              hσ t (hold t (by simp [Ir.Stmt.temps, Ir.Expr.temps])) addr (temp_eq_ok haddr)
            have hu : σ u = v :=
              hσ u (hold u (by simp [Ir.Stmt.temps, Ir.Expr.temps])) v (temp_eq_ok hv)
            subst ht hu
            exact ⟨_, Straight.runs (straight_act rfl) pre post hc, (hnext rfl).symm, rfl,
              hσ⟩
    | temp t =>
      have hcopy : ∀ {e : Ir.Expr}, move window loc (.temp t) e = (do
            let r ← expr window loc e
            return r.1 ++ [.move .copy t r.2]) → e.isValue → src = e →
          ∃ y, c.Runs S ⟨.instr pre.length, σ, ⟨r, w⟩⟩ events y ∧ Reflects n q p y := by
        rintro e hmove he rfl
        rw [stmt, hmove] at h
        simp only [bind_ok, pure_ok, Prod.exists] at h
        obtain ⟨code, u, s', hcode, rfl, rfl⟩ := h
        obtain ⟨w', v, htakes, rfl⟩ := exists_takes
          (fun w v => (w, { a with temps := a.temps.insert t v }, none))
          (by cases hcall : Call.inExpr src <;> simp [Call.inStmt, Call.inExpr, hcall])
          (fun _ _ => exec_keep) hperf
        exact keep_runs he hcode hn (fun t ht => hold t (List.mem_append_right _ ht)) hσ hdata
          htakes hc (fun _ => rfl) (hnext rfl)
      cases src with
      | after => cases hst
      | mem e =>
        simp only [stmt, move, bind_ok, pure_ok, Prod.exists] at h
        obtain ⟨code, u, s', hcode, rfl, rfl⟩ := h
        obtain ⟨w', v, htakes, rfl⟩ := exists_takes
          (fun w v => (w, { a with temps := a.temps.insert t (w.memory.load v) }, none))
          (by cases hcall : Call.inExpr e <;> simp [Call.inStmt, Call.inExpr, hcall])
          (fun _ _ => exec_fetch) hperf
        exact keep_runs hst hcode hn (fun t ht => hold t (List.mem_append_right _ ht)) hσ
          hdata htakes hc (fun _ => rfl) (hnext rfl)
      | const | name | temp | binary | unary | call => exact hcopy rfl hst rfl

/-! ## Positions -/

theorem stmts_append {xs ys : List Ir.Stmt} :
    ∀ {s s' : Session} {code : List Instr}, stmts window loc (xs ++ ys) s = .ok code s' ↔
      ∃ pre s₁ post, stmts window loc xs s = .ok pre s₁ ∧ stmts window loc ys s₁ = .ok post s' ∧
        code = pre ++ post := by
  induction xs with
  | nil =>
    intro s s' code
    simp only [List.nil_append, stmts, pure_ok]
    constructor
    · exact fun h => ⟨[], s, code, ⟨rfl, rfl⟩, h, rfl⟩
    · rintro ⟨_, _, _, ⟨rfl, rfl⟩, h, rfl⟩
      exact h
  | cons x xs ih =>
    intro s s' code
    simp only [List.cons_append, stmts, bind_ok, pure_ok, ih]
    constructor
    · rintro ⟨block, s₁, hx, _, _, ⟨pre, s₂, post, hxs, hys, rfl⟩, rfl, rfl⟩
      exact ⟨block ++ pre, s₂, post, ⟨block, s₁, hx, pre, s₂, hxs, rfl, rfl⟩, hys, by simp⟩
    · rintro ⟨_, _, post, ⟨block, s₁, hx, pre, s₂, hxs, rfl, rfl⟩, hys, rfl⟩
      exact ⟨block, s₁, hx, _, _, ⟨pre, _, post, hxs, hys, rfl⟩, by simp, rfl⟩

theorem exists_block {ss : List Ir.Stmt} {s s' : Session} {code : List Instr} {i : Nat}
    (h : stmts window loc ss s = .ok code s') (hi : ss[i]? = some st) :
    ∃ pre s₁ block s₂ post, stmts window loc (ss.take i) s = .ok pre s₁ ∧
      stmt window loc st s₁ = .ok block s₂ ∧
      stmts window loc (ss.drop (i + 1)) s₂ = .ok post s' ∧ code = pre ++ (block ++ post) := by
  obtain ⟨hlt, rfl⟩ := List.getElem?_eq_some_iff.mp hi
  rw [← List.take_append_drop i ss, List.drop_eq_getElem_cons hlt, stmts_append] at h
  obtain ⟨pre, s₁, _, hpre, hrest, rfl⟩ := h
  simp only [stmts, bind_ok, pure_ok] at hrest
  obtain ⟨block, s₂, hblock, post, _, hpost, rfl, rfl⟩ := hrest
  exact ⟨pre, s₁, block, s₂, post, hpre, hblock, hpost, rfl⟩

end

end Selection

/-! ## Chunks -/

/-- Where the instructions of a statement start: behind those of the statements before it. -/
def CodeChunk.start (c : CodeChunk) (window : Nat) (s : Session) (i : Nat) : Nat :=
  match Selection.stmts window c.loc (c.stmts.take i) s with
  | .ok code _ => code.length
  | .error _ _ => 0

/-- Canonical code in which a branch stands before the label it goes to on zero, and which repeats
no label. -/
structure CodeChunk.Linear (c : CodeChunk) : Prop where
  canonical : Ir.isCanonical c.stmts
  falls : ∀ i e pos neg, c.stmts[i]? = some (.branch e pos neg) →
    c.stmts[i + 1]? = some (.label neg)
  labels : (Ir.Stmt.listLabels c.stmts).Nodup

/-- A moment of the execution of a chunk's code that stands for a moment of its run. -/
structure CodeChunk.Mirrors (c : CodeChunk) (window : Nat) (s : Session) (w : World)
    (a : Activation) (x : Moment Temp Word Chip) : Prop where
  place : x.place = .instr (c.start window s a.position)
  world : x.state.world = w
  values : Selection.Agrees a s.names x.values

section Chunk

variable {c : CodeChunk} {window : Nat} {s s' : Session} {code : Code}

theorem CodeChunk.exists_select (h : Ir.isCanonical c.stmts) (window : Nat) (s : Session) :
    ∃ code s', c.select window s = .ok code s' := by
  obtain ⟨instrs, s₁, hs, -⟩ := Selection.stmts_of_isCanonical window c.loc s h
  simp only [CodeChunk.select, bind_ok, note_ok, pure_ok]
  exact ⟨_, _, _, _, hs, (), _, rfl, rfl, rfl⟩

theorem CodeChunk.select_stmts (h : c.select window s = .ok code s') :
    code.exit = c.exit ∧ ∃ s₁, Selection.stmts window c.loc c.stmts s = .ok code.instrs s₁ := by
  simp only [CodeChunk.select, bind_ok, note_ok, pure_ok] at h
  obtain ⟨instrs, s₁, hs, _, _, -, rfl, -⟩ := h
  exact ⟨rfl, s₁, hs⟩

variable {i : Nat} {pre : List Instr} {s₁ : Session}

theorem CodeChunk.start_eq (h : Selection.stmts window c.loc (c.stmts.take i) s = .ok pre s₁) :
    c.start window s i = pre.length := by
  rw [CodeChunk.start, h]

theorem CodeChunk.exists_block (h : c.select window s = .ok code s') {st : Ir.Stmt}
    (hi : c.stmts[i]? = some st) :
    ∃ pre s₁ block s₂ post s₃, Selection.stmts window c.loc (c.stmts.take i) s = .ok pre s₁ ∧
      Selection.stmt window c.loc st s₁ = .ok block s₂ ∧
      Selection.stmts window c.loc (c.stmts.drop (i + 1)) s₂ = .ok post s₃ ∧
      code.instrs = pre ++ (block ++ post) ∧ c.start window s i = pre.length ∧
      c.start window s (i + 1) = pre.length + block.length := by
  obtain ⟨-, s₃, hs⟩ := CodeChunk.select_stmts h
  obtain ⟨pre, s₁, block, s₂, post, hpre, hblock, hpost, hcode⟩ := Selection.exists_block hs hi
  refine ⟨pre, s₁, block, s₂, post, s₃, hpre, hblock, hpost, hcode, start_eq hpre, ?_⟩
  have hnext : Selection.stmts window c.loc (c.stmts.take (i + 1)) s = .ok (pre ++ block) s₂ := by
    rw [List.take_add_one, hi, Selection.stmts_append]
    refine ⟨pre, s₁, block, hpre, ?_, rfl⟩
    simp only [Option.toList, Selection.stmts, bind_ok, pure_ok]
    exact ⟨_, _, hblock, _, _, ⟨rfl, rfl⟩, by simp, rfl⟩
  rw [start_eq hnext, List.length_append]

/-- A label leads in the code to the instructions of the statement that it leads to in the chunk. -/
theorem CodeChunk.target?_start (hlin : c.Linear) (h : c.select window s = .ok code s') {l : Label}
    {j : Nat} (hne : l ≠ c.exit) (hj : c.stmts[j]? = some (.label l)) :
    code.target? (Code.labelsFrom 0 ∅ code.instrs) l = some (.instr (c.start window s j)) := by
  obtain ⟨pre, s₁, block, s₂, post, s₃, -, hblock, hpost, hcode, hstart, -⟩ := exists_block h hj
  obtain ⟨hexit, -⟩ := CodeChunk.select_stmts h
  simp only [Selection.stmt, pure_ok] at hblock
  obtain ⟨rfl, rfl⟩ := hblock
  refine Code.target?_eq_some.mpr (Or.inr ⟨hexit ▸ hne, _, ?_, rfl⟩)
  rw [hstart]
  refine Spill.lastAt_iff.mpr ⟨pre, post, hcode, rfl, fun hmem => ?_⟩
  -- the label stands nowhere else in the chunk
  obtain ⟨hlt, hget⟩ := List.getElem?_eq_some_iff.mp hj
  have hagain := Selection.label_mem_stmts hpost hmem
  have hnodup := hlin.labels
  rw [← List.take_append_drop j c.stmts, List.drop_eq_getElem_cons hlt, hget,
    Ir.Stmt.listLabels_append, Ir.Stmt.listLabels, Ir.Stmt.labels] at hnodup
  exact (List.nodup_cons.mp (List.nodup_append.mp hnodup).2.1).1 hagain

/-- While instructions are selected, names keep their texts. -/
theorem CodeChunk.textOf_eq (hcanon : Ir.isCanonical c.stmts)
    (h : Selection.stmts window c.loc (c.stmts.take i) s = .ok pre s₁) (l : Label) :
    s₁.names.textOf l = s.names.textOf l := by
  have htake : Ir.isCanonical (c.stmts.take i) :=
    List.all_eq_true.mpr fun st hst => List.all_eq_true.mp hcanon st (List.mem_of_mem_take hst)
  obtain ⟨code, s', hs', hlabels⟩ := Selection.stmts_of_isCanonical window c.loc s htake
  cases hs'.symm.trans h
  rw [Names.textOf, Names.textOf, hlabels]

theorem CodeChunk.names_le (h : Selection.stmts window c.loc (c.stmts.take i) s = .ok pre s₁) :
    s.names ≤ s₁.names :=
  (Selection.stmts_picks h (List.Subset.refl _) (List.Subset.refl _) (List.Subset.refl _)).names

end Chunk

/-- The temporaries of a chunk's statements were handed out, and no branch goes on zero to where the
function is left. -/
structure CodeChunk.Drawable (c : CodeChunk) (n : Names) : Prop where
  temps : ∀ t ∈ Ir.Stmt.listTemps c.stmts, n.HasTemp t
  rv : n.HasTemp c.frame.rv
  stays : ∀ (i : Nat) (e : Ir.Expr) (pos neg : Label), c.stmts[i]? = some (.branch e pos neg) →
    neg ≠ c.exit

section Runs

variable {c : CodeChunk} {window : Nat} {s s' : Session} {code : Code} {S : Surroundings}
  {image : Image} {w w' : World} {a a' : Activation} {x : Moment Temp Word Chip}

theorem mem_listTemps {ss : List Ir.Stmt} {i : Nat} {st : Ir.Stmt} (hi : ss[i]? = some st)
    (ht : t ∈ st.temps) : t ∈ Ir.Stmt.listTemps ss := by
  induction ss generalizing i with
  | nil => cases hi
  | cons st' ss ih =>
    rw [Ir.Stmt.listTemps, List.mem_append]
    cases i with
    | zero =>
      cases hi
      exact Or.inl ht
    | succ i => exact Or.inr (ih (by simpa using hi))

variable (hlin : c.Linear) (hdraw : c.Drawable s.names) (h : c.select window s = .ok code s')
  (hdata : ∀ l addr, image.data[l]? = some addr → S.data (s.names.textOf l) = addr)

include hlin hdraw h hdata

/-- One statement: from a moment that stands for one of the run, the instructions lead to where the
statement leads. -/
theorem CodeChunk.Mirrors.step (hx : c.Mirrors window s w a x) {st : Ir.Stmt}
    (hst : c.stmts[a.position]? = some st) {events : List (Label × World)}
    {target : Option Label} (hperf : Performs image S.calls w a st events (w', a', target))
    {p : Successor}
    (hp : target = none ∧ p = .instr (c.start window s (a.position + 1)) ∨
      (∃ l j, target = some l ∧ l ≠ c.exit ∧ (Body.ofChunk c).targets[l]? = some j ∧
        p = .instr (c.start window s j)) ∨ target = some c.exit ∧ p = .exit) :
    ∃ y, code.Runs S x events y ∧ Selection.Reflects s.names (w', a', target) p y := by
  obtain ⟨pre, s₁, block, s₂, post, s₃, hpre, hblock, hpost, hcode, hstart, hnext⟩ :=
    CodeChunk.exists_block h hst
  obtain ⟨hexit, -⟩ := CodeChunk.select_stmts h
  obtain ⟨place, σ, r, w⟩ := x
  obtain ⟨hplace, hworld, hσ⟩ := hx
  cases hworld
  obtain rfl : place = .instr pre.length := hstart ▸ hplace
  refine Selection.stmt_runs hcode (List.all_eq_true.mp hlin.canonical st (List.mem_of_getElem? hst))
    hblock (CodeChunk.names_le hpre) (fun t ht => hdraw.temps t (mem_listTemps hst ht)) hσ ?_ hperf
    ?_ ?_ ?_
  · intro l addr haddr
    rw [CodeChunk.textOf_eq hlin.canonical hpre]
    exact hdata l addr haddr
  · -- to the next statement
    rintro rfl
    rcases hp with ⟨-, rfl⟩ | ⟨l, j, hl, -⟩ | ⟨hl, -⟩
    · rw [hnext]
    · cases hl
    · cases hl
  · -- to a label
    rintro l rfl
    rcases hp with ⟨hl, -⟩ | ⟨l', j, hl, hne, hj, rfl⟩ | ⟨hl, rfl⟩
    · cases hl
    · cases hl
      exact CodeChunk.target?_start hlin h hne (Body.label_of_target hj)
    · cases hl
      exact Code.target?_eq_some.mpr (Or.inl ⟨hexit.symm, rfl⟩)
  · -- the label that a branch goes to on zero is the next statement
    rintro e pos neg rfl rfl
    have hfalls := hlin.falls _ e pos neg hst
    rcases hp with ⟨hl, -⟩ | ⟨l', j, hl, hne, hj, rfl⟩ | ⟨hl, rfl⟩
    · cases hl
    · cases hl
      have hj' : (Body.ofChunk c).targets[neg]? = some (0 + (a.position + 1)) :=
        targetsFrom_label hlin.labels hfalls
      obtain rfl : a.position + 1 = j := by
        have := Option.some.inj (hj'.symm.trans hj)
        omega
      rw [hnext]
    · cases hl
      exact absurd rfl (hdraw.stays _ e pos _ hst)

/-- A moment of the execution that stands for what a run of the chunk has led to, when the run is back
in the function or has ended. -/
inductive CodeChunk.Meets (c : CodeChunk) (window : Nat) (s : Session) (fp : Word) :
    Progress → Moment Temp Word Chip → Prop
  | running {w : World} {a : Activation} {y : Moment Temp Word Chip}
      (h : c.Mirrors window s w a y) : Meets c window s fp (.running ⟨w, a, []⟩) y
  | halted {v : Word} {w : World} {y : Moment Temp Word Chip} (hplace : y.place = .exit)
      (hrv : y.values c.frame.rv = v) (hworld : w = { y.state.world with sp := fp }) :
      Meets c window s fp (.halted v w) y

/-- What a statement leads to is met by what its instructions lead to. -/
theorem CodeChunk.Mirrors.meets (hbody : a.body = Body.ofChunk c) (hx : c.Mirrors window s w a x)
    {st : Ir.Stmt} (hst : a.current? = some st) {events : List (Label × World)}
    {q : World × Activation × Option Label} (hperf : Performs image S.calls w a st events q)
    (hok : ∀ f, (settle image [] q.1 q.2.1 q.2.2 []).2 ≠ .faulted f) :
    ∃ y, code.Runs S x events y ∧
      c.Meets window s a.savedSp (settle image [] q.1 q.2.1 q.2.2 []).2 y := by
  obtain ⟨w', a', target⟩ := q
  obtain ⟨ts, rfl⟩ := hperf.same
  have hst' : c.stmts[a.position]? = some st := by
    rw [Activation.current?, hbody] at hst
    simpa [Body.ofChunk] using hst
  cases hq : (settle image [] w' { a with temps := ts } target []).2 with
  | faulted f => exact absurd hq (hok f)
  | running s₁ =>
    obtain ⟨j, rfl, hj⟩ := settle_running hq
    have hp : target = none ∧ Successor.instr (c.start window s j) =
          .instr (c.start window s (a.position + 1)) ∨
        (∃ l j', target = some l ∧ l ≠ c.exit ∧ (Body.ofChunk c).targets[l]? = some j' ∧
          Successor.instr (c.start window s j) = .instr (c.start window s j')) ∨
        target = some c.exit ∧ Successor.instr (c.start window s j) = .exit := by
      rcases hj with ⟨rfl, rfl⟩ | ⟨l, rfl, hne, hl⟩
      · exact Or.inl ⟨rfl, rfl⟩
      · have hne' : l ≠ a.body.chunk.exit := hne
        have hl' : a.body.targets[l]? = some j := hl
        rw [hbody] at hne' hl'
        exact Or.inr (Or.inl ⟨l, j, rfl, hne', hl', rfl⟩)
    obtain ⟨y, hruns, hy⟩ := hx.step hlin hdraw h hdata hst' hperf hp
    exact ⟨y, hruns, .running ⟨hy.place, hy.world, hy.values⟩⟩
  | halted v w₁ =>
    obtain ⟨rfl, hrv, rfl⟩ := settle_halted hq
    have hexit : a.body.chunk.exit = c.exit := by rw [hbody]; rfl
    have hframe : a.body.chunk.frame = c.frame := by rw [hbody]; rfl
    obtain ⟨y, hruns, hy⟩ := hx.step hlin hdraw h hdata hst' hperf
      (Or.inr (Or.inr ⟨congrArg some hexit, rfl⟩))
    refine ⟨y, hruns, .halted hy.place ?_ (by rw [hy.world])⟩
    have hval := Selection.temp_eq_ok hrv
    rw [show ({ a with temps := ts } : Activation).body = a.body from rfl, hframe] at hval
    exact hy.values _ hdraw.rv v hval

/-- The machine runs a chunk from a statement on, and the code of the chunk follows: it is at every
moment where the machine is, when that is back in the function or at its end. -/
theorem CodeChunk.Mirrors.run {callDepth : Nat} (n : Nat) :
    ∀ {w : World} {a : Activation} {x : Moment Temp Word Chip} {p : Progress},
      a.body = Body.ofChunk c → S.calls = Called image callDepth a.level →
      c.Mirrors window s w a x → after image callDepth n (.running ⟨w, a, []⟩) = p →
      (∀ s', p = .running s' → s'.callers = []) → (∀ f, p ≠ .faulted f) →
      ∃ y, code.Runs S x (callsOf image callDepth n (.running ⟨w, a, []⟩)) y ∧
        c.Meets window s a.savedSp p y := by
  induction n using Nat.strongRecOn with
  | ind n ih =>
  intro w a x p hbody hcalls hx hp hback hok
  cases n with
  | zero =>
    cases hp
    exact ⟨x, .stop, .running hx⟩
  | succ n =>
    -- the current statement as a whole, and then the rest of the run
    obtain ⟨st, events, q, hst, hperf, k, hk, hafter, hevents⟩ := exists_performs hp hback hok
    have hsplit : n + 1 = k + 1 + (n - k) := by omega
    rw [hsplit, after_add, hafter] at hp
    rw [← hcalls] at hperf
    have hok' : ∀ f, (settle image [] q.1 q.2.1 q.2.2 []).2 ≠ .faulted f := by
      intro f hf
      rw [hf, after_faulted] at hp
      exact hok f hp.symm
    obtain ⟨y, hruns, hy⟩ := hx.meets hlin hdraw h hdata hbody hst hperf hok'
    obtain ⟨w₁, a₁, target⟩ := q
    obtain ⟨ts, rfl⟩ := hperf.same
    rw [hsplit, callsOf_add, hevents, hafter]
    generalize hq : (settle image [] w₁ { a with temps := ts } target []).2 = q at *
    cases hy with
    | running hy =>
      obtain ⟨j, hj, -⟩ := settle_running hq
      cases hj
      obtain ⟨z, hruns', hz⟩ := ih (n - k) (by omega)
        (a := { a with temps := ts, position := j }) hbody hcalls hy hp hback hok
      exact ⟨z, hruns.trans hruns', hz⟩
    | halted hplace hrv hworld =>
      rw [after_halted] at hp
      subst hp
      refine ⟨y, ?_, .halted hplace hrv hworld⟩
      cases n - k with
      | zero | succ m => simpa [callsOf] using hruns

end Runs

theorem CodeChunk.mirrors_entered (c : CodeChunk) (window level : Nat) (s : Session) (w : World)
    {σ : Temp → Word} {fp : Word} (hfp : σ c.frame.fp = fp) (r : Word) :
    c.Mirrors window s w (entered (Body.ofChunk c) fp level) ⟨.instr 0, σ, ⟨r, w⟩⟩ := by
  refine ⟨rfl, rfl, fun t _ v hv => ?_⟩
  rcases Table.of_getElem?_insert hv with ⟨rfl, rfl⟩ | ⟨-, hv⟩
  · exact hfp
  · simp at hv

/-! ## Executions that can be followed -/

section Following

variable {S : Surroundings} {c : Code}

/-- Where calls do one thing, so does every instruction. -/
theorem Code.Goes.unique (hcalls : ∀ {f w w₁ w₂}, S.calls f w w₁ → S.calls f w w₂ → w₁ = w₂)
    {x y y' : Moment Temp Word Chip} {events events' : List (Label × World)}
    (h : c.Goes S x events y) (h' : c.Goes S x events' y') : y = y' := by
  cases h with
  | @act i instr σ m e p hinstr hdoes hnext =>
    cases h' with
    | act hinstr' hdoes' hnext' =>
      cases hinstr.symm.trans hinstr'
      cases hdoes.symm.trans hdoes'
      cases hnext.symm.trans hnext'
      rfl
    | call hinstr' =>
      cases hinstr.symm.trans hinstr'
      cases hdoes
  | call hinstr hcall =>
    cases h' with
    | act hinstr' hdoes' =>
      cases hinstr.symm.trans hinstr'
      cases hdoes'
    | call hinstr' hcall' =>
      cases hinstr.symm.trans hinstr'
      cases hcalls hcall hcall'
      rfl

/-- There is one way to the exit. -/
theorem Code.Runs.unique (hcalls : ∀ {f w w₁ w₂}, S.calls f w w₁ → S.calls f w w₂ → w₁ = w₂)
    {x y y' : Moment Temp Word Chip} {events events' : List (Label × World)}
    (h : c.Runs S x events y) (hy : y.place = .exit) (h' : c.Runs S x events' y')
    (hy' : y'.place = .exit) : y = y' := by
  have hstuck : ∀ {x z : Moment Temp Word Chip} {events}, c.Goes S x events z → x.place ≠ .exit := by
    intro x z events hgo
    cases hgo <;> simp
  induction h generalizing events' with
  | stop =>
    cases h' with
    | stop => rfl
    | step hstep => exact absurd hy (hstuck hstep)
  | step hstep _ ih =>
    cases h' with
    | stop => exact absurd hy' (hstuck hstep)
    | step hstep' hrun' => exact ih hy ((hstep.unique hcalls hstep') ▸ hrun')

/-- Executes so many instructions other than calls. -/
def Code.steps? (data : String → Word) (c : Code) :
    Nat → Moment Temp Word Chip → Option (Moment Temp Word Chip)
  | 0, x => some x
  | k + 1, ⟨.instr i, σ, x⟩ => do
    let instr ← c.instrs[i]?
    let e ← instr.perform? data (instr.uses.map σ) x
    let p ← c.next? i e.target
    c.steps? data k ⟨p, writeAll σ instr.defs e.written, e.state⟩
  | _ + 1, ⟨.exit, _, _⟩ => none

theorem Code.runs_of_steps? {k : Nat} :
    ∀ {x y : Moment Temp Word Chip}, c.steps? S.data k x = some y → c.Runs S x [] y := by
  induction k with
  | zero =>
    intro x y h
    cases h
    exact .stop
  | succ k ih =>
    intro x y h
    obtain ⟨p, σ, m⟩ := x
    cases p with
    | exit => cases h
    | instr i =>
      simp only [Code.steps?, Option.bind_eq_bind, Option.bind_eq_some_iff] at h
      obtain ⟨instr, hinstr, e, hdoes, p, hnext, hrest⟩ := h
      exact .step (.act hinstr hdoes hnext) (ih hrest)

end Following

/-- Selection keeps the meaning of statements.  A canonical chunk in which a branch stands before the
label it goes to on zero, which is not where the function is left, and which repeats no label has
instructions.  Let its temporaries have been handed out, and let the instructions be executed where
names have the addresses of their data and a call does what the machine's call does.  Then from any
moment that stands for one of the machine's run, the instructions make the calls that the function
makes, in the same worlds with their arguments stored, and come to a moment that stands for the one
the machine comes to: the first instruction of the current statement with the same values and the same
world, whenever the machine is back in the function, and the exit with the same result and the same
world, when the function has ended. -/
theorem CodeChunk.select_simulates {c : CodeChunk} {s : Session} (hlin : c.Linear)
    (hdraw : c.Drawable s.names) (window : Nat) :
    ∃ code s', c.select window s = .ok code s' ∧
      ∀ (image : Image) (callDepth : Nat) (S : Surroundings),
        (∀ l addr, image.data[l]? = some addr → S.data (s.names.textOf l) = addr) →
        ∀ (n : Nat) (w : World) (a : Activation) (x : Moment Temp Word Chip) (p : Progress),
          a.body = Body.ofChunk c → S.calls = Called image callDepth a.level →
          c.Mirrors window s w a x → after image callDepth n (.running ⟨w, a, []⟩) = p →
          (∀ s', p = .running s' → s'.callers = []) → (∀ f, p ≠ .faulted f) →
          ∃ y, code.Runs S x (callsOf image callDepth n (.running ⟨w, a, []⟩)) y ∧
            c.Meets window s a.savedSp p y := by
  obtain ⟨code, s', h⟩ := CodeChunk.exists_select hlin.canonical window s
  refine ⟨code, s', h, ?_⟩
  intro image callDepth S hdata n w a x p hbody hcalls hx hp hback hok
  exact hx.run hlin hdraw h hdata n hbody hcalls hp hback hok

/-- The result and the world of a run that has ended. -/
def Machine.Progress.ended? : Progress → Option (Word × World)
  | .halted v w => some (v, w)
  | .running _ | .faulted _ => none

theorem Machine.Progress.eq_halted {p : Progress} {v : Word} {w : World}
    (h : p.ended? = some (v, w)) : p = .halted v w := by
  cases p with
  | halted =>
    cases h
    rfl
  | running | faulted => cases h

def plainFrame : Frame :=
  { label := ⟨0⟩, depth := 0, locals := 0, arguments := 272, size := 288, fp := ⟨0⟩, rv := ⟨1⟩ }

/-- A world in which nothing has happened. -/
def freshWorld : World := ⟨{}, 4096, 0, [], []⟩

/-- Writes two octets in a loop and returns the remainder of a negative number. -/
def counting : CodeChunk where
  name := "_counting"
  frame := plainFrame
  entry := ⟨1⟩
  exit := ⟨2⟩
  stmts := [
    .label ⟨1⟩, .move (.temp ⟨2⟩) (.const 2), .label ⟨3⟩, .move (.temp ⟨3⟩) (.const 65),
    .move (.temp ⟨3⟩) (.binary .add (.temp ⟨3⟩) (.temp ⟨2⟩)),
    .eval (.call ⟨5⟩ [0, 8, 264] [.temp ⟨0⟩, .temp ⟨3⟩, .temp ⟨2⟩]), .move (.temp ⟨4⟩) (.const 1),
    .move (.temp ⟨2⟩) (.binary .sub (.temp ⟨2⟩) (.temp ⟨4⟩)), .branch (.temp ⟨2⟩) ⟨3⟩ ⟨4⟩,
    .label ⟨4⟩, .move (.temp ⟨4⟩) (.const (-7)), .move (.temp ⟨3⟩) (.const 2),
    .move (.temp ⟨1⟩) (.binary .mod (.temp ⟨4⟩) (.temp ⟨3⟩)), .jump ⟨2⟩]

def countingNames : Names :=
  { temps := 5, labels := #[some "_counting", none, none, none, none, some "_putc"] }

theorem counting_linear : counting.Linear where
  canonical := by decide
  falls i e pos neg h := by
    have hlt : i < 14 := (List.getElem?_eq_some_iff.mp h).1
    have hother : ∀ i < 14, i ≠ 8 → counting.stmts[i]?.map Ir.Stmt.isBranch = some false := by
      decide
    by_cases hi : i = 8
    · subst hi
      cases h
      rfl
    · have hno := hother i hlt hi
      rw [h] at hno
      cases hno
  labels := by decide

theorem counting_drawable : counting.Drawable countingNames where
  temps := by
    show ∀ t ∈ Ir.Stmt.listTemps counting.stmts, t.index < 5
    decide
  rv := by
    show 1 < 5
    decide
  stays i e pos neg h := by
    have hmem := List.mem_of_getElem? h
    simp only [counting, List.mem_cons, List.not_mem_nil, or_false, reduceCtorEq, false_or,
      Ir.Stmt.branch.injEq] at hmem
    obtain ⟨-, -, rfl⟩ := hmem
    decide

/-- The code of the chunk calls twice, with an argument stored far from SP, falls out of its loop,
and returns one. -/
theorem CodeChunk.select_simulates_counting :
    ∃ code s', counting.select 8 { names := countingNames } = .ok code s' ∧
      ∃ events y, code.Runs ⟨fun _ => 0, Called ⟨countingNames, ∅, ∅⟩ 1 1, fun _ _ => 3⟩
          ⟨.instr 0, fun _ => 8192, ⟨0, freshWorld⟩⟩ events y ∧
        events.map Prod.fst = [⟨5⟩, ⟨5⟩] ∧ y.place = .exit ∧ y.values ⟨1⟩ = 1 ∧
        y.state.world.output = [66, 67] ∧ y.state.world.memory.load (4096 + 264) = 1 := by
  obtain ⟨code, s', hsel, hruns⟩ := CodeChunk.select_simulates (s := { names := countingNames })
    counting_linear counting_drawable 8
  have hend : (after ⟨countingNames, ∅, ∅⟩ 1 21
      (.running ⟨freshWorld, entered (Body.ofChunk counting) 8192 1, []⟩)).ended?.map
        (fun r => (r.1, r.2.output, r.2.memory.load (4096 + 264))) = some (1, [66, 67], 1) := by
    decide +kernel
  have hcalls : (callsOf ⟨countingNames, ∅, ∅⟩ 1 21
      (.running ⟨freshWorld, entered (Body.ofChunk counting) 8192 1, []⟩)).map Prod.fst =
        [⟨5⟩, ⟨5⟩] := by
    decide +kernel
  obtain ⟨⟨v, w⟩, hhalted, hvalues⟩ := Option.map_eq_some_iff.mp hend
  simp only [Prod.mk.injEq] at hvalues
  obtain ⟨rfl, houtput, hload⟩ := hvalues
  obtain ⟨y, hrun, hy⟩ := hruns ⟨countingNames, ∅, ∅⟩ 1
    ⟨fun _ => 0, Called ⟨countingNames, ∅, ∅⟩ 1 1, fun _ _ => 3⟩ (fun l addr h => by simp at h) 21
    freshWorld (entered (Body.ofChunk counting) 8192 1) ⟨.instr 0, fun _ => 8192, ⟨0, freshWorld⟩⟩
    (.halted 1 w) rfl rfl (counting.mirrors_entered 8 1 _ freshWorld (σ := fun _ => 8192) rfl 0)
    (Machine.Progress.eq_halted hhalted) (fun s' h => by cases h) (fun f h => by cases h)
  cases hy with
  | halted hplace hrv hworld =>
    subst hworld
    exact ⟨code, s', hsel, _, y, hrun, hcalls, hplace, hrv, houtput, hload⟩

/-! ## What a chunk must not do -/

/-- Surroundings in which nothing can be called. -/
def Surroundings.silent : Surroundings := ⟨fun _ => 0, fun _ _ _ => False, fun _ _ => 0⟩

/-- The run of the chunk ends with one value, and its code, executed from the moment that stands for
the start of the run, can only come to the exit with another. -/
def CodeChunk.Differs (c : CodeChunk) (n : Names) (steps : Nat) (v v' : Word) : Prop :=
  ∃ code s', c.select 8 { names := n } = .ok code s' ∧
    (∃ w, after ⟨n, ∅, ∅⟩ 1 steps
      (.running ⟨freshWorld, entered (Body.ofChunk c) 8192 1, []⟩) = .halted v w) ∧
    ∀ events y, code.Runs .silent ⟨.instr 0, fun _ => 8192, ⟨0, freshWorld⟩⟩ events y →
      y.place = .exit → y.values c.frame.rv = v'

/-- Running both tells whether they differ. -/
theorem CodeChunk.differs {c : CodeChunk} {n : Names} {steps k : Nat} {v v' : Word}
    (hmachine : (after ⟨n, ∅, ∅⟩ 1 steps
      (.running ⟨freshWorld, entered (Body.ofChunk c) 8192 1, []⟩)).ended?.map Prod.fst = some v)
    (hcode : ∃ code s', c.select 8 { names := n } = .ok code s' ∧
      (code.steps? Surroundings.silent.data k ⟨.instr 0, fun _ => 8192, ⟨0, freshWorld⟩⟩).map
        (fun y => (y.place, y.values c.frame.rv)) = some (.exit, v')) :
    c.Differs n steps v v' := by
  obtain ⟨code, s', hsel, hsteps⟩ := hcode
  obtain ⟨y, hy, hvalues⟩ := Option.map_eq_some_iff.mp hsteps
  obtain ⟨hplace, hrv⟩ := Prod.mk.inj hvalues
  obtain ⟨⟨v, w⟩, hw, rfl⟩ := Option.map_eq_some_iff.mp hmachine
  refine ⟨code, s', hsel, ⟨w, Machine.Progress.eq_halted hw⟩, fun events z hruns hz => ?_⟩
  have hnone : ∀ {f w w₁ w₂}, Surroundings.silent.calls f w w₁ →
      Surroundings.silent.calls f w w₂ → w₁ = w₂ := fun h => False.elim h
  rw [← (Code.runs_of_steps? hy).unique hnone hplace hruns hz]
  exact hrv

/-- Keeps seven in a temporary while another constant is taken. -/
def keeping : CodeChunk where
  name := "_keeping"
  frame := plainFrame
  entry := ⟨1⟩
  exit := ⟨2⟩
  stmts := [
    .label ⟨1⟩, .move (.temp ⟨3⟩) (.const 7), .move (.temp ⟨2⟩) (.const 5),
    .move (.temp ⟨1⟩) (.temp ⟨3⟩), .jump ⟨2⟩]

/-- Leaves on zero by a label that also stands behind the branch. -/
def leaving : CodeChunk where
  name := "_leaving"
  frame := plainFrame
  entry := ⟨1⟩
  exit := ⟨2⟩
  stmts := [
    .label ⟨1⟩, .move (.temp ⟨1⟩) (.const 0), .branch (.temp ⟨1⟩) ⟨1⟩ ⟨2⟩, .label ⟨2⟩,
    .move (.temp ⟨1⟩) (.const 1), .jump ⟨2⟩]

theorem keeping_linear : keeping.Linear where
  canonical := by decide
  falls i e pos neg h := by
    have hmem := List.mem_of_getElem? h
    simp [keeping] at hmem
  labels := by decide

theorem leaving_linear : leaving.Linear where
  canonical := by decide
  falls i e pos neg h := by
    have hlt : i < 6 := (List.getElem?_eq_some_iff.mp h).1
    have hother : ∀ i < 6, i ≠ 2 → leaving.stmts[i]?.map Ir.Stmt.isBranch = some false := by
      decide
    by_cases hi : i = 2
    · subst hi
      cases h
      rfl
    · have hno := hother i hlt hi
      rw [h] at hno
      cases hno
  labels := by decide

/-- A chunk's temporaries have to be handed out before its instructions are selected, or else a
constant is put into one of them; and a branch must not leave the function on zero, for it falls
through. -/
theorem CodeChunk.select_differs :
    (keeping.Linear ∧ keeping.Differs { temps := 2 } 5 7 5) ∧
      leaving.Linear ∧ leaving.Differs { temps := 2 } 3 0 1 :=
  ⟨⟨keeping_linear, CodeChunk.differs (k := 7) (by decide +kernel) (by decide +kernel)⟩,
    leaving_linear, CodeChunk.differs (k := 8) (by decide +kernel) (by decide +kernel)⟩

end MmixBackend
