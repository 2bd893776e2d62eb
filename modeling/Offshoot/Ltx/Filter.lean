import Offshoot.Ltx.Guard

/-!
# The frame guard is a filter

Over any number of calls of `Read`, with any buffers, on a source that comes in any chunks:
what is handed out is a prefix of the input and consists of fields that passed their checks;
an object of either format comes through whole; and no call without an error leaves
everything as it was.
-/

namespace Offshoot.Guard

open Chunks List

/-! ## What has been handed out -/

def start : Mode := ⟨.header, 0, 0⟩

/-- Fields that passed their checks, and the bytes they announced. -/
inductive Passed (c : Codec) : List UInt8 → Mode → Prop where
  | start : Passed c [] start
  | field {bs b : List UInt8} {m m' : Mode} : Passed c bs m → m.payload = 0 → Field c m b m' →
    Passed c (bs ++ b) m'
  | payload {bs b : List UInt8} {m : Mode} : Passed c bs m → m.state ≠ .rest →
    b.length ≤ m.payload → Passed c (bs ++ b) { m with payload := m.payload - b.length }
  | rest {bs b : List UInt8} {m : Mode} : Passed c bs m → m.state = .rest → Passed c (bs ++ b) m

inductive Inv (c : Codec) (input out : List UInt8) (g : FrameGuard) : Prop where
  | running : g.err = none → out ++ g.pending ++ g.src.flatten = input →
    Passed c (out ++ g.pending) g.toMode → Inv c input out g
  | refused {e : GuardErr} : g.err = some e → g.pending = [] → out <+: input →
    Passed c out g.toMode → Inv c input out g
  | ended {e : GuardErr} {passed tail : List UInt8} : g.err = some e → out ++ g.pending = input →
    input = passed ++ tail → Passed c passed g.toMode → Truncated g.toMode tail → Inv c input out g

variable {c : Codec} {g g' : FrameGuard} {m m' : Mode} {n : Nat} {e : Option GuardErr}
  {input out o b bs rest : List UInt8}

theorem Inv.init (c : Codec) (src : Source UInt8) : Inv c src.flatten [] (newFrameGuard src) :=
  .running rfl rfl .start

theorem Inv.ready (h : Inv c input out g) : Inv c input out (g.ready c) := by
  by_cases hdue : Due g
  · rw [ready_due hdue]
    cases h with
    | refused herr => exact absurd (herr.symm.trans hdue.err) (Option.some_ne_none _)
    | ended herr => exact absurd (herr.symm.trans hdue.err) (Option.some_ne_none _)
    | running herr hinput hpassed =>
      rw [hdue.pending, append_nil] at hinput hpassed
      cases step_stepTo (c := c) hdue.state with
      | ended hend hmode hpending _ htrunc =>
        exact .ended hend (hpending ▸ hinput) hinput.symm (hmode ▸ hpassed) (hmode ▸ htrunc)
      | refused hend hmode hpending =>
        exact .refused hend (hpending.trans hdue.pending) ⟨_, hinput⟩ (hmode ▸ hpassed)
      | passed hend _ hsrc hfield =>
        refine .running (hend.trans herr) ?_ (.field hpassed hdue.payload hfield)
        rw [append_assoc, hsrc, hinput]
  · rwa [ready_not_due hdue]

theorem Inv.of_idle (h : Inv c input out g) (herr : g.err = none) (hpending : g.pending = []) :
    out ++ g.src.flatten = input ∧ Passed c out g.toMode := by
  cases h with
  | running _ hinput hpassed =>
    rw [hpending, append_nil] at hinput hpassed
    exact ⟨hinput, hpassed⟩
  | refused hsome => exact absurd (hsome.symm.trans herr) (Option.some_ne_none _)
  | ended hsome => exact absurd (hsome.symm.trans herr) (Option.some_ne_none _)

theorem Inv.readTo (h : Inv c input out g) (hr : ReadTo n g g' o e) :
    Inv c input (out ++ o) g' := by
  cases hr with
  | pending hpending hg =>
    have hall : out ++ g.pending.take n ++ g.pending.drop n = out ++ g.pending := by
      rw [append_assoc, take_append_drop]
    subst hg
    cases h with
    | running herr hinput hpassed =>
      refine .running herr ?_ ?_
      · rw [hall, hinput]
      · rwa [hall]
    | refused herr hnil => exact absurd hnil hpending
    | ended herr hinput hsplit hpassed htrunc =>
      exact .ended herr (hall.trans hinput) hsplit hpassed htrunc
  | failed hpending herr hg =>
    rw [append_nil, hg]
    exact h
  | rest hpending herr hstate hg =>
    subst hg
    obtain ⟨hinput, hpassed⟩ := h.of_idle herr hpending
    refine .running herr ?_ ?_
    · show out ++ (read n g.src).1 ++ g.pending ++ (read n g.src).2.2.flatten = input
      rw [hpending, append_nil, append_assoc, read_append, hinput]
    · show Passed c (out ++ (read n g.src).1 ++ g.pending) g.toMode
      rw [hpending, append_nil]
      exact .rest hpassed hstate
  | payload hpending herr hstate hpayload hg =>
    subst hg
    obtain ⟨hinput, hpassed⟩ := h.of_idle herr hpending
    refine .running herr ?_ ?_
    · show out ++ (read (min n g.payload) g.src).1 ++ g.pending ++
        (read (min n g.payload) g.src).2.2.flatten = input
      rw [hpending, append_nil, append_assoc, read_append, hinput]
    · show Passed c (out ++ (read (min n g.payload) g.src).1 ++ g.pending)
        { g.toMode with payload := g.payload - (read (min n g.payload) g.src).1.length }
      rw [hpending, append_nil]
      exact .payload hpassed hstate (le_trans length_read_le (min_le_right _ _))

/-! ## Objects come through whole -/

/-- One page of an object, in the block format or as the frame that `ltx` v0.5.1 wrote. -/
inductive IsPage (c : Codec) (pageSize : Nat) : List UInt8 → Prop where
  | block {head size data : List UInt8} : head.length = pageHeaderSize →
    head ≠ List.replicate pageHeaderSize 0 → Endian.big (slice head 4 2) &&& c.flagSize ≠ 0 →
    size.length = 4 → data.length = Endian.big size → data.length ≤ lz4BlockBound pageSize →
    IsPage c pageSize (head ++ (size ++ data))
  | frame {head desc size data foot : List UInt8} : head.length = pageHeaderSize →
    head ≠ List.replicate pageHeaderSize 0 → Endian.big (slice head 4 2) &&& c.flagSize = 0 →
    desc.length = 7 → Endian.little (slice desc 0 4) = 0x184D2204 → slice desc 4 2 = [0x64, 0x40] →
    size.length = 4 → OnePage c pageSize (Endian.little size) data →
    foot.length = 8 → Endian.little (slice foot 0 4) = 0 →
    IsPage c pageSize (head ++ (desc ++ (size ++ data ++ foot)))

/-- An object: header, pages, the empty page header, and the page index and trailer, which
the guard leaves to the decoder. -/
inductive IsObject (c : Codec) : List UInt8 → Prop where
  | mk {hdr trailer : List UInt8} {pages : List (List UInt8)} {pageSize commit : Nat} :
    hdr.length = headerSize → c.header hdr = some (pageSize, commit) →
    validPageSize pageSize = true → commit ≤ maxCommit → (∀ p ∈ pages, IsPage c pageSize p) →
    IsObject c (hdr ++ (pages.flatten ++ (List.replicate pageHeaderSize 0 ++ trailer)))

/-- From this mode on the guard lets the bytes through. -/
inductive Accepts (c : Codec) : Mode → List UInt8 → Prop where
  | rest {m : Mode} {bs : List UInt8} : m.state = .rest → Accepts c m bs
  | field {m m' : Mode} {b bs : List UInt8} : m.payload = 0 → Field c m b m' → Accepts c m' bs →
    Accepts c m (b ++ bs)
  | payload {m : Mode} {b bs : List UInt8} : m.state ≠ .rest → 0 < m.payload →
    b.length = m.payload → Accepts c { m with payload := 0 } bs → Accepts c m (b ++ bs)

theorem Accepts.announced (hstate : m.state ≠ .rest) (hlen : b.length = m.payload)
    (h : Accepts c { m with payload := 0 } bs) : Accepts c m (b ++ bs) := by
  by_cases hzero : m.payload = 0
  · have hb : b = [] := eq_nil_of_length_eq_zero (hlen.trans hzero)
    have hm : { m with payload := 0 } = m := by rw [← hzero]
    rw [hb, nil_append]
    exact hm ▸ h
  · exact .payload hstate (Nat.pos_of_ne_zero hzero) hlen h

theorem Accepts.page (hstate : m.state = .pageHeader) (hpayload : m.payload = 0)
    (hp : IsPage c m.pageSize b) (h : Accepts c m bs) : Accepts c m (b ++ bs) := by
  obtain ⟨state, pageSize, payload⟩ := m
  obtain rfl : state = .pageHeader := hstate
  obtain rfl : payload = 0 := hpayload
  cases hp with
  | block hlen hzero hflag hsize hdata hbound =>
    rw [append_assoc, append_assoc]
    refine .field rfl (.blockPage rfl hlen hzero hflag) ?_
    refine .field rfl (.blockSize rfl hsize (hdata ▸ hbound)) ?_
    exact .announced (by simp) hdata h
  | frame hlen hzero hflag hdesc hmagic hflg hsize hpage hfoot hend =>
    rw [append_assoc, append_assoc, append_assoc]
    refine .field rfl (.framePage rfl hlen hzero hflag) ?_
    refine .field rfl (.frameHeader rfl hdesc hmagic hflg) ?_
    refine .field rfl (.frameBlock rfl hsize hpage) ?_
    exact .field rfl (.frameEnd rfl hfoot hend) h

theorem IsObject.accepts (h : IsObject c input) : Accepts c start input := by
  obtain ⟨hlen, hhdr, hsize, hcommit, hpages⟩ := h
  rename_i hdr trailer pages pageSize commit
  refine .field rfl (.header rfl hlen hhdr hsize hcommit) ?_
  induction pages with
  | nil =>
    rw [flatten_nil, nil_append]
    exact .field rfl (.lastPage rfl) (.rest rfl)
  | cons p pages ih =>
    rw [flatten_cons, append_assoc]
    refine .page rfl rfl (hpages p mem_cons_self) (ih fun q hq => ?_)
    exact hpages q (mem_cons_of_mem p hq)

theorem Accepts.drop (h : Accepts c m (b ++ rest)) (hstate : m.state ≠ .rest)
    (hpayload : 0 < m.payload) (hb : b.length ≤ m.payload) :
    Accepts c { m with payload := m.payload - b.length } rest := by
  generalize hbs : b ++ rest = bs at h
  cases h with
  | rest hrest => exact absurd hrest hstate
  | field hzero => exact absurd hzero (Nat.ne_of_gt hpayload)
  | @payload _ a bs _ _ hlen h =>
    obtain ⟨a', rfl, rfl⟩ : ∃ a', a = b ++ a' ∧ rest = a' ++ bs := by
      obtain ⟨t, ht, hr⟩ | ⟨t, ht, hr⟩ := append_eq_append_iff.mp hbs
      · exact ⟨t, ht, hr⟩
      have hnil : t = [] := by
        have hlt := congrArg List.length ht
        rw [length_append] at hlt
        exact eq_nil_of_length_eq_zero (by omega)
      rw [hnil, append_nil] at ht
      rw [hnil, nil_append] at hr
      exact ⟨[], by rw [ht, append_nil], by rw [hr, nil_append]⟩
    refine .announced hstate ?_ h
    rw [← hlen, length_append, Nat.add_sub_cancel_left]

/-- The guard after it has handed out `out` of an input it lets through. -/
structure Clear (c : Codec) (input out : List UInt8) (g : FrameGuard) : Prop where
  err : g.err = none
  input : out ++ g.pending ++ g.src.flatten = input
  accepts : Accepts c g.toMode g.src.flatten

theorem Clear.ready (h : Clear c input out g) : Clear c input out (g.ready c) := by
  by_cases hdue : Due g
  · rw [ready_due hdue]
    have hinput := h.input
    have haccepts := h.accepts
    rw [hdue.pending, append_nil] at hinput
    generalize hbs : g.src.flatten = bs at hinput haccepts
    cases haccepts with
    | rest hrest => exact absurd hrest hdue.state
    | payload _ hpos => exact absurd hdue.payload (Nat.ne_of_gt hpos)
    | field _ hfield haccepts =>
      obtain ⟨hmode, hpending, hsrc, herr⟩ := step_handed hfield hbs
      refine ⟨herr.trans h.err, ?_, ?_⟩
      · rw [hpending, hsrc, append_assoc, hinput]
      · rwa [hmode, hsrc]
  · rwa [ready_not_due hdue]

theorem Clear.readTo (h : Clear c input out g) (hr : ReadTo n g g' o e) :
    Clear c input (out ++ o) g' ∧ (e = none ∨ e = some .eof ∧ out ++ o = input) := by
  cases hr with
  | pending hpending hg =>
    subst hg
    refine ⟨⟨h.err, ?_, h.accepts⟩, .inl rfl⟩
    rw [append_assoc out, take_append_drop, h.input]
  | failed hpending herr => exact absurd (herr.symm.trans h.err) (Option.some_ne_none _)
  | rest hpending herr hstate hg =>
    have hinput := h.input
    rw [hpending, append_nil] at hinput
    have hread : out ++ (read n g.src).1 ++ (read n g.src).2.2.flatten = input := by
      rw [append_assoc, read_append, hinput]
    subst hg
    refine ⟨⟨herr, ?_, .rest hstate⟩, ?_⟩
    · show out ++ (read n g.src).1 ++ g.pending ++ (read n g.src).2.2.flatten = input
      rw [hpending, append_nil, hread]
    · cases hend : (read n g.src).2.1 with
      | false => exact .inl rfl
      | true =>
        rw [read_end hend, flatten_nil, append_nil] at hread
        exact .inr ⟨rfl, hread⟩
  | payload hpending herr hstate hpayload hg =>
    have hinput := h.input
    have haccepts := h.accepts
    have hlen : (read (min n g.payload) g.src).1.length ≤ g.payload :=
      le_trans length_read_le (min_le_right _ _)
    rw [hpending, append_nil] at hinput
    have hread : out ++ (read (min n g.payload) g.src).1 ++
        (read (min n g.payload) g.src).2.2.flatten = input := by
      rw [append_assoc, read_append, hinput]
    subst hg
    refine ⟨⟨herr, ?_, ?_⟩, ?_⟩
    · show out ++ (read (min n g.payload) g.src).1 ++ g.pending ++
        (read (min n g.payload) g.src).2.2.flatten = input
      rw [hpending, append_nil, hread]
    · rw [← read_append (n := min n g.payload)] at haccepts
      exact haccepts.drop hstate hpayload hlen
    · cases hend : (read (min n g.payload) g.src).2.1 with
      | false => exact .inl rfl
      | true =>
        rw [read_end hend, flatten_nil, append_nil] at hread
        exact .inr ⟨rfl, hread⟩

/-! ## Every call without an error takes something -/

def FrameGuard.left (g : FrameGuard) : Nat :=
  g.pending.length + (g.src.flatten.length + g.src.length)

theorem length_step_src : (g.step c).src.length ≤ g.src.length := by
  have hfield : ∀ k check, (g.field k check).src.length ≤ g.src.length := by
    intro k check
    rw [FrameGuard.field]
    split
    · exact length_readFull_rest
    · split <;> exact length_readFull_rest
  rw [FrameGuard.step]
  split
  · exact hfield _ _
  · exact hfield _ _
  · exact hfield _ _
  · exact hfield _ _
  · rw [FrameGuard.frameBlock]
    split
    · exact length_readFull_rest
    split
    · exact length_readFull_rest
    have hle : ∀ k, (readFull k (readFull 4 g.src).2.2).2.2.length ≤ g.src.length := fun k =>
      le_trans length_readFull_rest length_readFull_rest
    dsimp only
    split
    · exact hle _
    · split <;> exact hle _
  · exact hfield _ _
  · exact Nat.le_refl _

theorem left_ready : (g.ready c).left ≤ g.left := by
  by_cases hdue : Due g
  · have hsrc := length_step_src (c := c) (g := g)
    rw [ready_due hdue, FrameGuard.left, FrameGuard.left]
    cases step_stepTo (c := c) hdue.state with
    | ended _ _ hpending hflat =>
      rw [hpending, hflat, length_nil]
      omega
    | refused _ _ hpending hsuffix =>
      have hle := hsuffix.length_le
      rw [hpending]
      omega
    | passed _ _ hflat =>
      have hsum := congrArg List.length hflat
      rw [length_append] at hsum
      omega
  · rw [ready_not_due hdue]

theorem ReadTo.left_le (hr : ReadTo n g g' o e) : g'.left ≤ g.left := by
  cases hr with
  | pending _ hg =>
    subst hg
    rw [FrameGuard.left, FrameGuard.left, length_drop]
    dsimp only
    omega
  | failed _ _ hg => rw [hg]
  | rest _ _ _ hg =>
    subst hg
    exact Nat.add_le_add_left read_le _
  | payload _ _ _ _ hg =>
    subst hg
    exact Nat.add_le_add_left read_le _

theorem ReadTo.left_lt (hr : ReadTo n g g' o none) (hn : 0 < n) : g'.left < g.left := by
  generalize he : none = e at hr
  cases hr with
  | pending hpending hg =>
    subst hg
    have hpos := length_pos_of_ne_nil hpending
    rw [FrameGuard.left, FrameGuard.left, length_drop]
    dsimp only
    omega
  | failed => cases he
  | rest hpending herr hstate hg =>
    have hend : (read n g.src).2.1 = false := by
      by_contra hne
      rw [if_pos (Bool.eq_true_of_not_eq_false hne)] at he
      cases he
    subst hg
    exact Nat.add_lt_add_left (read_lt hn hend) _
  | payload hpending herr hstate hpayload hg =>
    have hend : (read (min n g.payload) g.src).2.1 = false := by
      by_contra hne
      rw [if_pos (Bool.eq_true_of_not_eq_false hne)] at he
      cases he
    subst hg
    exact Nat.add_lt_add_left (read_lt (Nat.lt_min.mpr ⟨hn, hpayload⟩) hend) _

/-! ## Runs of calls -/

/-- Calls of `Read` with buffers of the given sizes, and what each of them returns. -/
def FrameGuard.reads (c : Codec) (fuel : Nat) :
    List Nat → FrameGuard → Option (FrameGuard × List (List UInt8 × Option GuardErr))
  | [], g => some (g, [])
  | n :: ns, g =>
    (g.read c n fuel).bind fun r => (r.1.reads c fuel ns).map fun rs => (rs.1, r.2 :: rs.2)

def handedOut (rs : List (List UInt8 × Option GuardErr)) : List UInt8 := (rs.map Prod.fst).flatten

inductive Reads (c : Codec) : FrameGuard → List Nat → List (List UInt8 × Option GuardErr) →
    FrameGuard → Prop where
  | nil {g : FrameGuard} : Reads c g [] [] g
  | cons {g g₁ g₂ : FrameGuard} {n : Nat} {ns : List Nat} {out : List UInt8}
    {e : Option GuardErr} {rs : List (List UInt8 × Option GuardErr)} :
    ReadTo n (g.ready c) g₁ out e → Reads c g₁ ns rs g₂ → Reads c g (n :: ns) ((out, e) :: rs) g₂

theorem reads_spec (c : Codec) (ns : List Nat) (g : FrameGuard) : ∃ g' rs,
    (∀ fuel, g.reads c (fuel + 2) ns = some (g', rs)) ∧ Reads c g ns rs g' := by
  induction ns generalizing g with
  | nil => exact ⟨g, [], fun _ => rfl, .nil⟩
  | cons n ns ih =>
    obtain ⟨g₁, out, e, hread, hto⟩ := read_spec c n g
    obtain ⟨g₂, rs, hreads, hrun⟩ := ih g₁
    refine ⟨g₂, (out, e) :: rs, fun fuel => ?_, .cons hto hrun⟩
    rw [FrameGuard.reads, hread fuel, Option.bind_some, hreads fuel, Option.map_some]

variable {ns : List Nat} {rs : List (List UInt8 × Option GuardErr)}

theorem Inv.reads (h : Inv c input out g) (hr : Reads c g ns rs g') :
    Inv c input (out ++ handedOut rs) g' := by
  induction hr generalizing out with
  | nil =>
    rw [handedOut, map_nil, flatten_nil, append_nil]
    exact h
  | cons hto _ ih =>
    rw [handedOut, map_cons, flatten_cons, ← append_assoc]
    exact ih (h.ready.readTo hto)

theorem Clear.reads (h : Clear c input out g) (hr : Reads c g ns rs g') :
    Clear c input (out ++ handedOut rs) g' ∧ (∀ r ∈ rs, r.2 = none ∨ r.2 = some .eof) ∧
      ((∃ r ∈ rs, r.2 ≠ none) → out ++ handedOut rs = input) := by
  induction hr generalizing out with
  | nil =>
    rw [handedOut, map_nil, flatten_nil, append_nil]
    exact ⟨h, by simp, by simp⟩
  | @cons g g₁ g₂ n ns o e rs hto _ ih =>
    obtain ⟨hclear, herr⟩ := h.ready.readTo hto
    obtain ⟨hrun, herrs, hall⟩ := ih hclear
    rw [handedOut, map_cons, flatten_cons, ← append_assoc]
    refine ⟨hrun, ?_, ?_⟩
    · rw [forall_mem_cons]
      exact ⟨herr.imp id And.left, herrs⟩
    · rintro ⟨r, hmem, hr⟩
      obtain rfl | hmem := mem_cons.mp hmem
      · -- the input was out with this call, and the later ones cannot add to it
        obtain hnone | ⟨-, hout⟩ := herr
        · exact absurd hnone hr
        have hinput := hrun.input
        rw [hout, append_assoc, append_assoc] at hinput
        have hnil := append_cancel_left (hinput.trans (append_nil input).symm)
        show out ++ o ++ handedOut rs = input
        rw [hout, (append_eq_nil_iff.mp hnil).1, append_nil]
      · exact hall ⟨r, hmem, hr⟩

theorem Reads.left_le (hr : Reads c g ns rs g') (hok : ∀ r ∈ rs, r.2 = none) :
    (ns.filter (0 < ·)).length + g'.left ≤ g.left := by
  induction hr with
  | nil => simp
  | @cons g g₁ g₂ n ns o e rs hto _ ih =>
    rw [forall_mem_cons] at hok
    obtain rfl : e = none := hok.1
    have hle := left_ready (c := c) (g := g)
    have hrest := ih hok.2
    by_cases hn : 0 < n
    · have hlt := hto.left_lt hn
      rw [filter_cons, if_pos (decide_eq_true hn), length_cons]
      omega
    · have hle' := hto.left_le
      rw [filter_cons, if_neg (by simpa using hn)]
      omega

theorem Inv.checked (h : Inv c input out g) : ∃ passed tail m,
    out <+: passed ++ tail ∧ passed ++ tail <+: input ∧ Passed c passed m ∧
      (tail = [] ∨ passed ++ tail = input ∧ Truncated m tail) := by
  cases h with
  | running _ hinput hpassed =>
    refine ⟨out ++ g.pending, [], g.toMode, ?_, ?_, hpassed, .inl rfl⟩
    · rw [append_nil]
      exact prefix_append _ _
    · rw [append_nil]
      exact ⟨_, hinput⟩
  | refused _ _ hout hpassed =>
    refine ⟨out, [], g.toMode, ?_, ?_, hpassed, .inl rfl⟩
    · rw [append_nil]
    · rwa [append_nil]
  | @ended _ passed tail _ hinput hsplit hpassed htrunc =>
    refine ⟨passed, tail, g.toMode, ?_, ?_, hpassed, .inr ⟨hsplit.symm, htrunc⟩⟩
    · exact ⟨g.pending, hinput.trans hsplit⟩
    · rw [hsplit]

/-- The guard is a filter.  For every source and every sequence of buffers each call returns,
and what they hand out together is a prefix of the input.  It consists of fields that passed
their checks and of the bytes these announced; only when the input itself ends within a field
what there is of that field is handed on, for the decoder to report.  An object of either
format comes through whole: there is no error but the end of the input, and not before all of
it is out, which it is after as many calls with room as there are bytes and chunks.  And a
call with room that reports no error has taken something from the input. -/
theorem reads_filter (c : Codec) (src : Source UInt8) (ns : List Nat) :
    ∃ g rs, (∀ fuel, 2 ≤ fuel → (newFrameGuard src).reads c fuel ns = some (g, rs)) ∧
      handedOut rs <+: src.flatten ∧
      (∃ passed tail m, handedOut rs <+: passed ++ tail ∧ passed ++ tail <+: src.flatten ∧
        Passed c passed m ∧ (tail = [] ∨ passed ++ tail = src.flatten ∧ Truncated m tail)) ∧
      (IsObject c src.flatten → (∀ r ∈ rs, r.2 = none ∨ r.2 = some .eof) ∧
        ((∃ r ∈ rs, r.2 ≠ none) → handedOut rs = src.flatten) ∧
        (src.flatten.length + src.length < (ns.filter (0 < ·)).length →
          handedOut rs = src.flatten)) ∧
      ∀ n, 0 < n → ∃ g' out e, (∀ fuel, 2 ≤ fuel → g.read c n fuel = some (g', out, e)) ∧
        (e = none → g'.left < g.left) := by
  obtain ⟨g, rs, hreads, hrun⟩ := reads_spec c ns (newFrameGuard src)
  have hinv : Inv c src.flatten (handedOut rs) g := (Inv.init c src).reads hrun
  have hchecked := hinv.checked
  refine ⟨g, rs, fun fuel hfuel => ?_, ?_, hchecked, fun hobject => ?_, fun n hn => ?_⟩
  · obtain ⟨k, rfl⟩ := Nat.exists_eq_add_of_le' hfuel
    exact hreads k
  · obtain ⟨passed, tail, m, hout, hinput, -⟩ := hchecked
    exact hout.trans hinput
  · have hclear : Clear c src.flatten [] (newFrameGuard src) := ⟨rfl, rfl, hobject.accepts⟩
    obtain ⟨-, herrs, hall⟩ := hclear.reads hrun
    refine ⟨herrs, hall, fun hmany => hall ?_⟩
    by_contra hnone
    have hok : ∀ r ∈ rs, r.2 = none := by
      intro r hr
      by_contra hne
      exact hnone ⟨r, hr, hne⟩
    have hle := hrun.left_le hok
    have hleft : (newFrameGuard src).left = src.flatten.length + src.length := zero_add _
    omega
  · obtain ⟨g', out, e, hread, hto⟩ := read_spec c n g
    refine ⟨g', out, e, fun fuel hfuel => ?_, fun he => ?_⟩
    · obtain ⟨k, rfl⟩ := Nat.exists_eq_add_of_le' hfuel
      exact hread k
    · subst he
      exact lt_of_lt_of_le (hto.left_lt hn) left_ready

def sampleCodec : Codec where
  header _ := some (512, 2)
  flagSize := 1
  uncompressBlock _ n := some n

/-- A page in each format, in chunks that cut across the fields. -/
def sampleObject : Source UInt8 :=
  [List.replicate headerSize 1 ++ [0, 0], [],
    [0, 1, 0, 1] ++ ([0, 0, 0, 2] ++ [7, 7]) ++ [0, 0, 0, 2],
    [0, 0] ++ [0x04, 0x22, 0x4D, 0x18, 0x64, 0x40, 0] ++ [2, 0, 0, 0, 9, 9] ++
      [0, 0, 0, 0, 1, 2, 3, 4],
    List.replicate pageHeaderSize 0 ++ [5, 6]]

theorem sampleObject_isObject : IsObject sampleCodec sampleObject.flatten := by
  have hblock : IsPage sampleCodec 512 ([0, 0, 0, 1, 0, 1] ++ ([0, 0, 0, 2] ++ [7, 7])) :=
    .block rfl (by decide) (by decide) rfl (by decide) (by decide)
  have hframe : IsPage sampleCodec 512 ([0, 0, 0, 2, 0, 0] ++
      ([0x04, 0x22, 0x4D, 0x18, 0x64, 0x40, 0] ++ ([2, 0, 0, 0] ++ [9, 9] ++
        [0, 0, 0, 0, 1, 2, 3, 4]))) :=
    .frame rfl (by decide) (by decide) rfl (by decide) (by decide) rfl
      ⟨by decide, by decide, by decide, by decide, fun _ => rfl⟩ rfl (by decide)
  have hobject : IsObject sampleCodec (List.replicate headerSize 1 ++ (_ ++
      (List.replicate pageHeaderSize 0 ++ [5, 6]))) :=
    .mk (length_replicate ..) rfl (by decide) (by decide)
      (forall_mem_cons.mpr ⟨hblock, forall_mem_singleton.mpr hframe⟩)
  exact hobject

theorem reads_filter_sample : ∃ g rs,
    (newFrameGuard sampleObject).reads sampleCodec 2 (List.replicate 300 3) = some (g, rs) ∧
      handedOut rs = sampleObject.flatten := by
  obtain ⟨g, rs, hreads, -, -, hobject, -⟩ :=
    reads_filter sampleCodec sampleObject (List.replicate 300 3)
  refine ⟨g, rs, hreads 2 (Nat.le_refl 2), (hobject sampleObject_isObject).2.2 ?_⟩
  decide +kernel

/-! ### An input that ends within a field -/

theorem Passed.nil_or_header (h : Passed c bs m) :
    bs = [] ∧ m = Guard.start ∨ headerSize ≤ bs.length := by
  induction h with
  | start => exact .inl ⟨rfl, rfl⟩
  | field _ _ hfield ih =>
    refine .inr ?_
    rw [length_append]
    rcases ih with ⟨-, rfl⟩ | ih
    · cases hfield with
      | header _ hlen => exact hlen ▸ Nat.le_add_left _ _
      | _ hstate => cases hstate
    · exact Nat.le_add_right_of_le ih
  | payload _ _ hlen ih =>
    refine ih.imp ?_ fun ih => length_append ▸ Nat.le_add_right_of_le ih
    rintro ⟨rfl, rfl⟩
    rw [eq_nil_of_length_eq_zero (Nat.le_zero.mp hlen)]
    exact ⟨rfl, rfl⟩
  | rest _ hstate ih =>
    refine ih.imp ?_ fun ih => length_append ▸ Nat.le_add_right_of_le ih
    rintro ⟨-, rfl⟩
    cases hstate

/-- All but the last byte of a header whose page size is 3. -/
def cutHeader : Source UInt8 := [[76, 84, 88, 49, 0, 0, 0, 0, 0, 0, 0, 3] ++ List.replicate 87 0]

/-- What there is of a header that the input breaks off is handed out unchecked. -/
theorem reads_hand_out_unchecked : ¬ ∀ (c : Codec) (src : Source UInt8) (ns : List Nat)
    (g : FrameGuard) (rs : List (List UInt8 × Option GuardErr)),
    (newFrameGuard src).reads c 2 ns = some (g, rs) →
    ∃ passed m, handedOut rs <+: passed ∧ passed <+: src.flatten ∧ Passed c passed m := by
  intro h
  obtain ⟨passed, m, hout, hinput, hpassed⟩ :=
    h { sampleCodec with header := fun _ => some (3, 1) } cutHeader [99] _ _ rfl
  have hle : 99 ≤ passed.length := hout.length_le
  have hlt : passed.length ≤ 99 := hinput.length_le
  rcases hpassed.nil_or_header with ⟨rfl, -⟩ | hlen
  · exact absurd hle (by decide)
  · exact absurd (hlen.trans hlt) (by decide)

end Offshoot.Guard
