import Offshoot.System.Refs

/-!
# Writes taking effect

Whatever an action is, either one write of a ref takes effect in it or none does.
A write that takes effect was made by the thread that acts, or was left pending by
the thread that made it.  So what is asked of a write when it is made, if it
cannot be lost again, is true when it takes effect.
-/

namespace Offshoot

open Conc Maps List

variable {env : Env} {w w' : World} {i j : Nat}
variable {b : BranchId} {after : Option Ref} {a : Act}

structure Wrote (w w' : World) (j : Nat) (b : BranchId) (op : RefOp) (after : Option Ref) :
    Prop where
  apply : op.apply (w.refs.lookup b) = some after
  lookup : ∀ b', w'.refs.lookup b' = if b' = b then after else w.refs.lookup b'
  log : ∃ news, w'.log = news ++ .wrote j b op (w.refs.lookup b) after :: w.log ∧
    ∀ e ∈ news, ∃ j b l lease, e = Event.granted j b l lease

structure Unwritten (w w' : World) : Prop where
  lookup : ∀ b, w'.refs.lookup b = w.refs.lookup b
  log : ∃ news, w'.log = news ++ w.log ∧
    ∀ e ∈ news, ∀ j b op before after, e ≠ Event.wrote j b op before after

theorem wrote_land {op : RefOp} (happly : op.apply (w.refs.lookup b) = some after) :
    Wrote w (w.land j b op after) j b op after :=
  ⟨happly, fun b' => w.lookup_land j b b' op after, [], rfl, by simp⟩

theorem Unwritten.of_eq (hrefs : w'.refs = w.refs) (hlog : w'.log = w.log) : Unwritten w w' :=
  ⟨fun _ => by rw [hrefs], [], hlog, by simp⟩

theorem Unwritten.of_cons {e : Event} (hrefs : w'.refs = w.refs) (hlog : w'.log = e :: w.log)
    (he : ∀ j b op before after, e ≠ .wrote j b op before after) : Unwritten w w' :=
  ⟨fun _ => by rw [hrefs], [e], hlog, by simpa using he⟩

theorem Wrote.of_eq {op : RefOp} (happly : op.apply (w.refs.lookup b) = some after)
    (hrefs : w'.refs = (w.setRef b after).refs)
    (hlog : w'.log = .wrote j b op (w.refs.lookup b) after :: w.log) : Wrote w w' j b op after :=
  ⟨happly, fun b' => by rw [hrefs, w.lookup_setRef], [], hlog, by simp⟩

def World.newsSince (w₀ w : World) : List Event := w.log.take (w.log.length - w₀.log.length)

theorem Wrote.mem_news {op : RefOp} (h : Wrote w w' j b op after) :
    Event.wrote j b op (w.refs.lookup b) after ∈ World.newsSince w w' := by
  obtain ⟨news, hlog, -⟩ := h.log
  have hlog' : w'.log = (news ++ [Event.wrote j b op (w.refs.lookup b) after]) ++ w.log := by
    rw [hlog]
    simp
  rw [World.newsSince, hlog', length_append, Nat.add_sub_cancel, take_left]
  exact mem_append_right _ mem_cons_self

theorem Wrote.unique {b' : BranchId} {op op' : RefOp} {after' : Option Ref} {j' : Nat}
    (h : Wrote w w' j b op after) (h' : Wrote w w' j' b' op' after') :
    j' = j ∧ b' = b ∧ op' = op ∧ after' = after := by
  obtain ⟨news, hlog, -⟩ := h.log
  obtain ⟨news', hlog', -⟩ := h'.log
  rw [hlog] at hlog'
  have hlen := congrArg List.length hlog'
  simp only [length_append, length_cons, Nat.add_right_cancel_iff] at hlen
  obtain ⟨rfl, rfl, rfl, -, rfl⟩ := Event.wrote.inj
    (cons_eq_cons.mp (append_inj_right hlog' hlen)).1
  exact ⟨rfl, rfl, rfl, rfl⟩

theorem Unwritten.not_wrote {op : RefOp} (h : Unwritten w w') : ¬ Wrote w w' j b op after := by
  intro h'
  obtain ⟨news, hlog, hnews⟩ := h.log
  obtain ⟨news', hlog', -⟩ := h'.log
  rw [hlog', ← singleton_append, ← append_assoc] at hlog
  rw [← append_cancel_right hlog] at hnews
  exact hnews _ (mem_append_right _ mem_cons_self) _ _ _ _ _ rfl

theorem Unwritten.version {r : Ref} (h : Unwritten w w') : w'.Version b r ↔ w.Version b r := by
  obtain ⟨news, hlog, hnews⟩ := h.log
  simp only [World.Version, hlog, mem_append]
  constructor
  · rintro ⟨i, op, before, h | h⟩
    · exact absurd rfl (hnews _ h _ _ _ _ _)
    · exact ⟨i, op, before, h⟩
  · rintro ⟨i, op, before, h⟩
    exact ⟨i, op, before, .inr h⟩

theorem Wrote.version {b' : BranchId} {op : RefOp} {r : Ref} (h : Wrote w w' j b op after) :
    w'.Version b' r ↔ b' = b ∧ after = some r ∨ w.Version b' r := by
  obtain ⟨news, hlog, hnews⟩ := h.log
  simp only [World.Version, hlog, mem_append, mem_cons, Event.wrote.injEq]
  constructor
  · rintro ⟨i, op', before, h | ⟨-, rfl, -, -, rfl⟩ | h⟩
    · obtain ⟨_, _, _, _, heq⟩ := hnews _ h
      cases heq
    · exact .inl ⟨rfl, rfl⟩
    · exact .inr ⟨i, op', before, h⟩
  · rintro (⟨rfl, rfl⟩ | ⟨i, op', before, h⟩)
    · exact ⟨j, op, _, .inr (.inl ⟨rfl, rfl, rfl, rfl, rfl⟩)⟩
    · exact ⟨i, op', before, .inr (.inr h)⟩

def Act.op : Act → Option (BranchId × RefOp)
  | write b op _ | grant b op _ _ => some (b, op)
  | effect b e _ => some (b, .edit e)
  | _ => .none

theorem Event.quiet.not_wrote {e : Event} (h : e.quiet) (j : Nat) (b : BranchId) (op : RefOp)
    (before after : Option Ref) : e ≠ .wrote j b op before after := by
  rintro rfl
  exact h

/-- Where a write that takes effect with the act comes from: the act itself, or what thread
`j` had left to land. -/
abbrev Act.Source (a : Act) (i : Nat) (w : World) (j : Nat) (b : BranchId) (op : RefOp)
    (after : Option Ref) : Prop :=
  j = i ∧ a.op = some (b, op) ∨
    (∃ r, after = some r ∧ Pending.ref j b op (w.refs.lookup b) r ∈ w.pending) ∨
    op = .delete ∧ (.delete j b :: (a.run i w).pending).Perm w.pending

theorem RefsInv.effects (h : RefsInv env w) (hok : a.ok env i w) : Unwritten w (a.run i w) ∨
    ∃ j b op after, Wrote w (a.run i w) j b op after ∧ a.Source i w j b op after := by
  cases a with
  | none => exact .inl (.of_eq rfl rfl)
  | session _ _ | checkout _ _ _ | clock _ | flight _ | put _ _ | drop _ | stones _
  | send _ _ _ _ | sendPut _ _ _ | sendStones _ _ | sendDelete _ => exact .inl (.of_eq rfl rfl)
  | note e => exact .inl (.of_cons rfl rfl (Event.quiet.not_wrote hok))
  | mint => exact .inl (.of_cons rfl rfl (by simp))
  | adopt b r lease => exact .inl (.of_cons rfl rfl (by simp))
  | sweep time k => exact .inl (.of_cons rfl rfl (by simp))
  | write b op after => exact .inr ⟨i, b, op, after, wrote_land hok.1, .inl ⟨rfl, rfl⟩⟩
  | grant b op after lease =>
    refine .inr ⟨i, b, op, some after, ⟨hok.1, (wrote_land (j := i) hok.1).lookup,
      [.granted i b after.lineage lease], rfl, ?_⟩, .inl ⟨rfl, rfl⟩⟩
    simp
  | effect b e r =>
    have happly : RefOp.apply (.edit e) (w.refs.lookup b) = some (some r) := by
      rw [hok.1, RefOp.apply_edit hok.2.1, h.stored (h.current hok.1)]
    refine .inr ⟨i, b, .edit e, some r, ⟨happly, fun b' => ?_, [], ?_, by simp⟩, .inl ⟨rfl, rfl⟩⟩
    · by_cases hb : b' = b
      · rw [if_pos hb, hb]
        exact hok.1
      · rw [if_neg hb]
        rfl
    · rw [hok.1]
      rfl
  | late n =>
    unfold Act.Source
    refine Act.late_elim (fun j b op after hp => ?_) (fun j b hp => ?_)
      (fun _ _ _ _ => .inl (.of_eq rfl rfl)) fun _ => .inl (.of_eq rfl rfl)
    · have hmem := mem_of_getElem? hp
      have happly := (h.sent hmem).1
      have hland := wrote_land (w := { w with pending := w.pending.eraseIdx n }) (j := j) happly
      exact .inr ⟨j, b, op, some after, ⟨happly, hland.lookup, hland.log⟩,
        .inr (.inl ⟨after, rfl, hmem⟩)⟩
    · have hland : Wrote { w with pending := w.pending.eraseIdx n } _ j b .delete none :=
        wrote_land rfl
      obtain ⟨hn, hp⟩ := List.getElem?_eq_some_iff.mp hp
      exact .inr ⟨j, b, .delete, none, ⟨rfl, hland.lookup, hland.log⟩,
        .inr (.inr ⟨rfl, hp ▸ getElem_cons_eraseIdx_perm hn⟩)⟩

/-- `P w j b before op`: in state `w`, thread `j` may write `op` of `b` against
`before`.  Acts that make such writes only. -/
def Act.vouched (P : World → Nat → BranchId → Option Ref → RefOp → Prop) (i : Nat) (w : World) :
    Act → Prop
  | write b op _ | grant b op _ _ => P w i b (w.refs.lookup b) op
  | effect b e _ => P w i b (w.refs.lookup b) (.edit e)
  | send b op before _ => P w i b before op
  | sendDelete b => P w i b (w.refs.lookup b) .delete
  | _ => True

theorem Act.vouched.mono {P P' : World → Nat → BranchId → Option Ref → RefOp → Prop}
    (h : a.vouched P i w) (hP : ∀ {b before op}, P w i b before op → P' w i b before op) :
    a.vouched P' i w := by
  cases a <;> first | trivial | exact hP h

/-- What a write of a ref comes to: nothing, its effect, or a write left pending. -/
def Act.Puts (w : World) (b : BranchId) (op : RefOp) (r : Ref) (etag : Option Ref) (a : Act) :
    Prop :=
  a = .none ∨ a = .write b op (some r.stored) ∧ w.refs.lookup b = etag ∨
    a = .send b op etag r.stored

theorem World.tryRef_act {op : RefOp} {r : Ref} {etag : Option Ref}
    (happly : op.apply etag = some (some r.stored)) (hby : op.by i) (o : Oracle) (w : World) :
    ∃ a : Act, a.Puts w b op r etag ∧ a.ok env i w ∧
      a.run i w = (w.tryRef env o i b op r etag).1 ∧
      ((w.tryRef env o i b op r etag).2 = .ok () → a = .write b op (some r.stored)) := by
  have hwrite (hit : w.refs.lookup b = etag) : (Act.write b op (some r.stored)).ok env i w :=
    ⟨by rw [hit]; exact happly, hby⟩
  simp only [World.tryRef]
  split
  · rename_i h
    exact ⟨.write b op (some r.stored), .inr (.inl ⟨rfl, h.1⟩), hwrite h.1, rfl, fun _ => rfl⟩
  · split
    · exact ⟨.none, .inl rfl, trivial, rfl, by simp⟩
    rename_i hset
    cases o.fate with
    | lost => exact ⟨.none, .inl rfl, trivial, rfl, by simp⟩
    | landed =>
      dsimp only
      split
      · rename_i hit
        exact ⟨.write b op (some r.stored), .inr (.inl ⟨rfl, hit⟩), hwrite hit, rfl, by simp⟩
      · exact ⟨.none, .inl rfl, trivial, rfl, by simp⟩
    | pending =>
      exact ⟨.send b op etag r.stored, .inr (.inr rfl), ⟨by simpa using hset, happly, hby⟩,
        rfl, by simp⟩

/-- A write of a ref, from a state described by a stable predicate. -/
theorem putRef_holds {S : Spec World} {G : World → World → Prop} {P : World → Prop}
    {Q : Result Unit → World → Prop} {b : BranchId} {op : RefOp} {r : Ref} {etag : Option Ref}
    (hP : S.Stable i P) (hw : P w) (happly : op.apply etag = some (some r.stored)) (hby : op.by i)
    (h : ∀ w (a : Act) res, S.inv w → P w → a.Puts w b op r etag → a.ok env i w →
      (res = .ok () → a = .write b op (some r.stored)) → S.assumed w (a.run i w) →
      G w (a.run i w) ∧ Q res (a.run i w)) : S.Holds G i Q (putRef env i b op r etag) w := by
  refine Spec.Holds.step hP hw fun w o hinv hw has => ?_
  obtain ⟨a, hputs, hok, hrun, hres⟩ := World.tryRef_act happly hby o w
  rw [← hrun] at has ⊢
  exact h w a _ hinv hw hputs hok hres has

/-- What vouches for the write vouches for whatever comes of it. -/
theorem Act.Puts.vouched {P : World → Nat → BranchId → Option Ref → RefOp → Prop} {op : RefOp}
    {r : Ref} {etag : Option Ref} (h : a.Puts w b op r etag) (hP : P w i b etag op) :
    a.vouched P i w := by
  rcases h with rfl | ⟨rfl, hit⟩ | rfl
  · trivial
  · show P w i b (w.refs.lookup b) op
    rw [hit]
    exact hP
  · exact hP

/-- A ref write left pending was so before, or is being left so. -/
theorem Act.pending_cases {op : RefOp} {before : Option Ref} {after : Ref}
    (hp : Pending.ref j b op before after ∈ (a.run i w).pending) :
    Pending.ref j b op before after ∈ w.pending ∨ j = i ∧ a = .send b op before after := by
  refine (Act.mem_pending hp).imp_right fun hsent => ?_
  cases a <;> cases hsent
  exact ⟨rfl, rfl⟩

theorem Act.pending_delete (hp : Pending.delete j b ∈ (a.run i w).pending) :
    Pending.delete j b ∈ w.pending ∨ j = i ∧ a = .sendDelete b := by
  refine (Act.mem_pending hp).imp_right fun hsent => ?_
  cases a <;> cases hsent
  exact ⟨rfl, rfl⟩

theorem Act.clock_run (a : Act) : w.clock ≤ (a.run i w).clock := by
  cases a with
  | clock n => exact Nat.le_add_right _ _
  | late n =>
    exact Act.late_elim (fun _ _ _ _ _ => le_rfl) (fun _ _ _ => le_rfl) (fun _ _ _ _ => le_rfl)
      fun _ => le_rfl
  | _ => exact le_rfl

theorem Act.objs_run (a : Act) : (a.run i w).objs = w.objs ∨
    (∃ k o, (a.run i w).objs = (w.putObj k o).objs ∧
      (a = .put k o ∨ ∃ co, Pending.put k o co ∈ w.pending)) ∨
    ∃ k, (a.run i w).objs = (w.dropObj k).objs ∧ (a = .drop k ∨ ∃ t, a = .sweep t k) := by
  cases a with
  | put k o => exact .inr (.inl ⟨k, o, rfl, .inl rfl⟩)
  | drop k => exact .inr (.inr ⟨k, rfl, .inl rfl⟩)
  | sweep t k => exact .inr (.inr ⟨k, rfl, .inr ⟨t, rfl⟩⟩)
  | late n =>
    exact Act.late_elim (fun _ _ _ _ _ => .inl rfl) (fun _ _ _ => .inl rfl)
      (fun k o co hp => .inr (.inl ⟨k, o, rfl, .inr ⟨co, mem_of_getElem? hp⟩⟩)) fun _ => .inl rfl
  | _ => exact .inl rfl

theorem Act.pending_put {k : DataKey} {o : Obj} {co : Bool}
    (hp : Pending.put k o co ∈ (a.run i w).pending) :
    Pending.put k o co ∈ w.pending ∨ a = .sendPut k o co := by
  refine (Act.mem_pending hp).imp_right fun hsent => ?_
  cases a <;> cases hsent
  rfl

/-! ## Uploads that are vouched for -/

def Act.lays (P : World → DataKey → Obj → Prop) (w : World) : Act → Prop
  | put k o | sendPut k o _ => P w k o
  | _ => True

/-- Every object there, or that may still get there, satisfies `P`. -/
structure Laid (P : World → DataKey → Obj → Prop) (w : World) : Prop where
  obj : ∀ {k o}, w.objs.lookup k = some o → P w k o
  sent : ∀ {k o co}, Pending.put k o co ∈ w.pending → P w k o

theorem Laid.run {P : World → DataKey → Obj → Prop} (h : Laid P w) (ha : a.lays P w)
    (hmono : ∀ {k o}, P w k o → P (a.run i w) k o) : Laid P (a.run i w) where
  obj {k o} hk := by
    rcases a.objs_run (i := i) (w := w) with hobjs | ⟨k', o', hobjs, hsrc⟩ | ⟨k', hobjs, -⟩
    · exact hmono (h.obj (hobjs ▸ hk))
    · rw [hobjs, World.putObj] at hk
      by_cases hkk : k = k'
      · subst hkk
        obtain rfl : o' = o := by simpa using hk
        rcases hsrc with rfl | ⟨co, hp⟩
        · exact hmono ha
        · exact hmono (h.sent hp)
      · exact hmono (h.obj (by simpa [AList.lookup_insert_ne hkk] using hk))
    · rw [hobjs, World.dropObj] at hk
      by_cases hkk : k = k'
      · subst hkk
        simp at hk
      · exact hmono (h.obj (by simpa [AList.lookup_erase_ne hkk] using hk))
  sent {k o co} hp := by
    rcases Act.pending_put hp with hp | rfl
    · exact hmono (h.sent hp)
    · exact hmono ha

/-! ## Writes that are vouched for -/

def Vouched (P : World → Nat → BranchId → Option Ref → RefOp → Prop) (w : World) : Prop :=
  ∀ j b op before after, Pending.ref j b op before after ∈ w.pending → P w j b before op

variable {P : World → Nat → BranchId → Option Ref → RefOp → Prop}

theorem RefOp.ne_delete {op : RefOp} {before : Option Ref} {r : Ref}
    (h : op.apply before = some (some r)) : op ≠ .delete := by
  rintro rfl
  cases h

/-- What vouches for a removal may be lost again. -/
theorem Vouched.run (hv : Vouched P w) (h : RefsInv env w) (hok : a.ok env i w)
    (ha : a.vouched P i w)
    (hmono : ∀ {j b before op}, op ≠ .delete → P w j b before op → P (a.run i w) j b before op) :
    Vouched P (a.run i w) := by
  intro j b op before after hp
  rcases Act.pending_cases hp with hp | ⟨rfl, rfl⟩
  · exact hmono (RefOp.ne_delete (h.sent hp).1) (hv _ _ _ _ _ hp)
  · exact hmono (RefOp.ne_delete hok.2.1) ha

/-- A write that takes effect is vouched for when it does, and made by the thread that
acts or left pending by another. -/
theorem Vouched.effects (hv : Vouched P w) (h : RefsInv env w) (hok : a.ok env i w)
    (ha : a.vouched P i w)
    (hdel : ∀ j b, Pending.delete j b ∈ w.pending → P w j b (w.refs.lookup b) .delete) :
    Unwritten w (a.run i w) ∨ ∃ j b op after, Wrote w (a.run i w) j b op after ∧
      P w j b (w.refs.lookup b) op ∧ a.Source i w j b op after := by
  rcases h.effects hok with hun | ⟨j, b, op, after, hw, hsrc⟩
  · exact .inl hun
  refine .inr ⟨j, b, op, after, hw, ?_, hsrc⟩
  rcases hsrc with ⟨rfl, hop⟩ | ⟨r, -, hp⟩ | ⟨rfl, hp⟩
  · cases a <;> simp only [Act.op, Option.some.injEq, Prod.mk.injEq, reduceCtorEq] at hop <;>
      obtain ⟨rfl, rfl⟩ := hop <;> exact ha
  · exact hv _ _ _ _ _ hp
  · exact hdel _ _ (hp.subset mem_cons_self)

end Offshoot
