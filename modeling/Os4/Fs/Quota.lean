import Mathlib.Order.Interval.Finset.Nat
import Os4.Fs.Cache
/-!
# How much one section of `filewrite` logs (file.c:116-155)

`begin_op` reserves `MAXOPBLOCKS` = 10 blocks of the log. `filewrite` cuts a write into sections of
`maxChunk` = 6656 bytes, a number that comes from `LOGSIZE`: a full section logs 13 data blocks or
more.

**`filewrite_quota_iff`**: when the quota is kept. `quota_exceeded`: a write that breaks it.
-/
namespace Os4.Fs

open Prog

variable {E : Env} {first : Nat} {p : Int} {N : Nat} {k : Fin NINODE}
  {i off n : Nat} {s s' : FsState}
  {T T' : Nat → Dinode} {F : Panic → Prop} {src : List UInt8} {f : Fin NFILE} {addr : Nat → UInt8}

/-- `writei` returns -1 for the bytes `off .. off + n - 1`. -/
def Dinode.Refuses (d : Dinode) (off n : Nat) : Prop := d.size < off ∨ MAXFILE * BSIZE < off + n

instance (d : Dinode) (off n : Nat) : Decidable (d.Refuses off n) :=
  inferInstanceAs (Decidable (_ ∨ _))

/-- The distinct blocks that writing the bytes `off .. off + n - 1` of a file logs: its data blocks,
the bitmap if one of them is new, the indirect block if one that it lists is new, the inode if the
file grows. -/
def sectionBlocks (d : Dinode) (disk : Disk) (off n : Nat) : Nat :=
  if d.Refuses off n then 0
  else (touched off n).card + (if ∃ bn ∈ touched off n, d.fileBlock disk bn = 0 then 1 else 0) +
    (if ∃ bn ∈ touched off n, NDIRECT ≤ bn ∧ d.fileBlock disk bn = 0 then 1 else 0) +
    if d.size < off + n then 1 else 0

/-! ## One section -/

variable {A : Finset Nat}

theorem mem_insert_if {c : Prop} [Decidable c] {y z : Nat} :
    z ∈ (if c then insert y A else A) ↔ z ∈ A ∨ (z = y ∧ c) := by
  split
  · simp only [Finset.mem_insert, *, and_true, or_comm]
  · simp only [*, and_false, or_false]

theorem card_insert_if {c : Prop} [Decidable c] {y : Nat} (h : c → y ∉ A) :
    (if c then insert y A else A).card = A.card + if c then 1 else 0 := by
  split
  · exact Finset.card_insert_of_notMem (h ‹_›)
  · rfl

/-- What a successful `writei` logs. -/
theorem Writei.log (hW : Writei E p N k i off src s T s' T') (hi : Live T i)
    (hgood : ¬ (T i).Refuses off src.length) :
    ∃ A : Finset Nat, s'.curLog.toFinset = s.curLog.toFinset ∪ A ∧
      A.card = sectionBlocks (T i) s.disk off src.length := by
  have hi' : Live T' i := ⟨hi.1, by rw [hW.fields]; exact hi.2⟩
  have hib := inodeBlock_range (E := E) (p := p) hi.1
  have hrange : ∀ bn ∈ touched off src.length, E.offset p + 58 ≤ (T' i).fileBlock s'.disk bn :=
    fun bn hbn => (hW.vol.spread.fileBlock_range hi' (hW.mapped bn hbn)).1
  have hdata : ((touched off src.length).image ((T' i).fileBlock s'.disk)).card =
      (touched off src.length).card :=
    Finset.card_image_of_injOn fun a ha b _ hab =>
      (hW.vol.spread.fileBlock_inj hi' hi' (hW.mapped a ha) hab).2
  have hind : (∃ bn ∈ touched off src.length, NDIRECT ≤ bn ∧ (T i).fileBlock s.disk bn = 0) →
      E.offset p + 58 ≤ (T' i).indirect := by
    rintro ⟨bn, hbn, hge, -⟩
    exact (hW.vol.spread.indirect_range hi' (hW.indirect_pos bn hbn hge)).1
  rw [sectionBlocks, if_neg hgood, ← hdata, ← card_insert_if (y := bmBlock E p),
    ← card_insert_if (y := (T' i).indirect), ← card_insert_if (y := inodeBlock E p i)]
  · refine ⟨_, ?_, rfl⟩
    ext y
    rw [List.mem_toFinset, hW.logs y, Finset.mem_union, List.mem_toFinset, mem_insert_if,
      mem_insert_if, mem_insert_if, Finset.mem_image]
    simp only [or_assoc, eq_comm]
  · intro _
    rw [mem_insert_if, mem_insert_if, Finset.mem_image]
    rintro ((⟨bn, hbn, heq⟩ | ⟨heq, -⟩) | ⟨heq, hc⟩)
    · have := hrange bn hbn; omega
    · have : inodeBlock E p i = E.offset p + 57 := heq; omega
    · have := hind hc; omega
  · intro hc
    have := hind hc
    rw [mem_insert_if, Finset.mem_image]
    rintro (⟨bn, hbn, heq⟩ | ⟨heq, -⟩)
    · exact hW.vol.spread.fileBlock_ne_indirect hi' hi' (hW.mapped bn hbn) heq
    · have : (T' i).indirect = E.offset p + 57 := heq; omega
  · intro _
    rw [Finset.mem_image]
    rintro ⟨bn, hbn, heq⟩
    have := hrange bn hbn
    have : (T' i).fileBlock s'.disk bn = E.offset p + 57 := heq
    omega

variable {Q : Int → FsState → Prop}

theorem sectionEnd_wp {r : Int} (hbusy : (s.icache k).busy = true) (hk : 0 < (s.icache k).ref)
    (h : ∀ s', s'.curLog = s.curLog → Q r s') :
    (do advance f r; iunlock k; endOp; return r : FsM Int).wp Q F s := by
  have hend : ∀ t : FsState, t.icache = s.icache → t.curLog = s.curLog →
      (do iunlock k; endOp; return r : FsM Int).wp Q F t := by
    intro t hc hl
    rw [wp_bind, iunlock, wp_bind, wp_inode, hc, hbusy, if_neg (by simp; omega), wp_setInode,
      wp_bind, endOp, wp_modify, wp_pure]
    exact h _ hl
  rw [wp_bind, advance, wp_bind, wp_get, wp_ite]
  exact ⟨fun _ => hend _ rfl rfl, fun _ => hend _ rfl rfl⟩

theorem writeSection_wp (hL : Laid E first) (hC : Consistent E s) (hfile : (s.ftable f).ip = k)
    (hpos : (s.ftable f).off = off) (hk : 0 < (s.icache k).ref) (hprt : (s.icache k).prt = some p)
    (hinum : (s.icache k).inum = i) (htype : (dinodeAt E s.disk p i).type = T_FILE)
    (hoff : off < 2 ^ 32) (hn : n < 2 ^ 32)
    (hbusy : (s.icache k).busy = true → F .deadlock)
    (hN : Mkfs.superblock.nblocks ≤ N) (hN' : N ≤ 1000)
    (hroom : Room E p N s.disk F ((dinodeAt E s.disk p i).need s.disk off n)) (j : Nat)
    (h : ∀ s', s'.curLog.toFinset.card = sectionBlocks (dinodeAt E s.disk p i) s.disk off n →
      Q (if (dinodeAt E s.disk p i).Refuses off n then -1 else n) s') :
    (writeSection E f addr j n).wp Q F s := by
  have hlen : (fetch addr j n).length = n := by simp [fetch]
  have hne : (dinodeAt E s.disk p i).type ≠ 0 := by rw [htype]; decide
  unfold writeSection
  rw [wp_bind, beginOp, wp_modify, wp_bind, wp_get, wp_bind]
  simp only [hfile, hpos]
  have hC1 : Consistent E { s with outstanding := s.outstanding + 1, logged := [] :: s.logged } :=
    ⟨hC.vol, hC.slot, hC.unique⟩
  refine ilock_cases hC1 hk (fun h0 => ?_) hbusy (fun q hq h0 => ?_)
    fun q x _ hid href hq hb hv hslot _ => ?_
  · rw [hprt] at h0; cases h0
  · obtain rfl : p = q := Option.some.inj (hprt.symm.trans hq)
    rw [hinum] at h0
    exact absurd h0 hne
  obtain ⟨hxp, hxi⟩ := Prod.mk.inj hid
  obtain rfl : p = q := Option.some.inj ((hprt.symm.trans hxp.symm).trans hq)
  obtain ⟨hp, hi, hd⟩ := hslot.live hq hv
  have hxi : x.inum = i := hxi.trans hinum
  rw [hxi] at hi hd
  have hdev : x.din.type ≠ T_DEV := by
    rw [hd]
    show (dinodeAt E s.disk p i).type ≠ _
    rw [htype]
    decide
  have href : 0 < x.ref := by rw [href]; exact hk
  -- the state with the inode locked
  obtain ⟨t, ht⟩ : ∃ t, t =
      FsState.withInode { s with outstanding := s.outstanding + 1, logged := [] :: s.logged } k x :=
    ⟨_, rfl⟩
  have hx : t.icache k = x := by rw [ht, withInode_self]
  have hdisk : t.disk = s.disk := by rw [ht]; rfl
  have hout : t.outstanding ≠ 0 := by rw [ht]; exact Nat.succ_ne_zero _
  have hlog : t.curLog = [] := by rw [ht]; rfl
  rw [← ht, wp_bind]
  by_cases hbad : (dinodeAt E s.disk p i).Refuses off n
  · rw [wp_run (writei_bad hoff (by rw [hlen]; exact hn) (by rw [hx]; exact hdev) ?_)]
    · refine sectionEnd_wp (by rw [hx]; exact hb) (by rw [hx]; exact href) fun s' hl => ?_
      have hQ := h s' (by rw [hl, hlog, sectionBlocks, if_pos hbad]; rfl)
      rwa [if_pos hbad] at hQ
    · rw [hx, hlen, hd]
      exact hbad.imp_right .inr
  · have hgood := not_or.1 hbad
    have hroom' : Room E p N t.disk F ((dinodeAt E s.disk p i).need t.disk off n) := by
      rw [hdisk]
      exact hroom
    refine writei_wp (i := i)
      (T := dinodeAt E s.disk p) (by rw [hdisk]; exact (hC.vol p hp).mono hN) hN' (hL.off_lt hp) hi
      (by rw [hx]; exact hq) (by rw [hx]; exact hxi) (by rw [hx]; exact hd)
        (by rw [htype]; decide) (by omega)
      (by rw [hlen]; omega) (by rw [hlen]; exact hroom') (fun h0 => absurd h0 hout)
        fun s3 T' hW => ?_
    have hslot3 := hW.touch.slot
    rw [hx] at hslot3
    rw [hlen]
    refine sectionEnd_wp (by rw [hslot3]; exact hb) (by rw [hslot3]; exact href) fun s' hl => ?_
    obtain ⟨A, hA, hcard⟩ := hW.log hi (by rw [hlen]; exact hbad)
    have hQ := h s' (by
      rw [hl, hA, hlog, List.toFinset_nil, Finset.empty_union, hcard, hlen, hdisk])
    rwa [if_neg hbad] at hQ

/-! ## All sections -/

theorem writeSection_logged {j : Nat} {r : Int} (h : writeSection E f addr j n s = .ok (r, s')) :
    ∃ l, s'.logged = l :: s.logged := by
  have hR := steps_respects local_sameSection E
  have ht := local_sameSection.trans
  have hr := local_sameSection.refl
  have hrest : Steps SameSection (do
      let x := (← get).ftable f
      ilock E x.ip
      let r ← writei E x.ip (fetch addr j n) x.off
      advance f r
      iunlock x.ip
      endOp
      return r : FsM Int) :=
    Steps.read fun t => Steps.bind ht (hR.ilock _) fun _ =>
      Steps.bind ht (hR.writei _ _ _) fun _ => Steps.bind ht
      (Steps.read fun _ => Steps.ite (Steps.modify fun _ l _ h => ⟨l, h⟩) (Steps.pure hr _))
        fun _ =>
      Steps.bind ht (hR.iunlock _) fun _ =>
        Steps.bind ht (Steps.modify fun _ l _ h => ⟨l, h⟩) fun _ => Steps.pure hr _
  obtain ⟨_, s1, h1, h2⟩ := bind_ok h
  cases h1
  exact hrest _ _ _ h2 [] s.logged rfl

theorem filewriteLoop_logged (m : Nat) : ∀ fuel j : Nat,
    Steps (fun s s' => ∃ ls, s'.logged = ls ++ s.logged) (filewriteLoop E f addr m fuel j) := by
  have hrefl : ∀ s : FsState, ∃ ls, s.logged = ls ++ s.logged := fun s => ⟨[], rfl⟩
  intro fuel
  induction fuel with
  | zero => exact fun j => Steps.pure hrefl _
  | succ fuel ih =>
    intro j
    refine Steps.ite (Steps.pure hrefl _) (Steps.bind ?_ (fun s r s' h => ?_) fun r => ?_)
    · rintro a b c ⟨l1, h1⟩ ⟨l2, h2⟩
      exact ⟨l2 ++ l1, by rw [h2, h1, List.append_assoc]⟩
    · obtain ⟨l, hl⟩ := writeSection_logged h
      exact ⟨[l], hl⟩
    · exact Steps.ite (Steps.pure hrefl _) (Steps.ite (Steps.throw _) (ih _))

/-- A full section touches at least 13 blocks. -/
theorem card_touched_maxChunk (h : off + maxChunk ≤ MAXFILE * BSIZE) :
    13 ≤ (touched off maxChunk).card := by
  have hsub : Finset.Ico (off / 512) (off / 512 + 13) ⊆ touched off maxChunk := by
    intro bn hbn
    rw [Finset.mem_Ico] at hbn
    rw [mem_touched]
    simp only [maxChunk, LOGSIZE, MAXOPBLOCKS, MAXFILE, NDIRECT, NINDIRECT, BSIZE] at *
    omega
  have := Finset.card_le_card hsub
  rwa [Nat.card_Ico, Nat.add_sub_cancel_left] at this

variable {d : Dinode}

theorem sectionBlocks_maxChunk (h : ¬ d.Refuses off maxChunk) (disk : Disk) :
    13 ≤ sectionBlocks d disk off maxChunk := by
  have := card_touched_maxChunk (Nat.le_of_not_lt (not_or.1 h).2)
  rw [sectionBlocks, if_neg h]
  omega

theorem sectionBlocks_zero {disk : Disk} : sectionBlocks d disk off 0 = 0 := by
  have h0 : touched off 0 = ∅ := by
    ext bn
    simp [mem_touched]
  unfold sectionBlocks
  by_cases h : d.Refuses off 0
  · rw [if_pos h]
  · have hsize : ¬ d.size < off + 0 := fun hlt => h (.inl hlt)
    rw [if_neg h, if_neg hsize, h0]
    simp

/-- **The quota of `filewrite`.** For a regular file, a write at any offset of any length keeps
every section within `MAXOPBLOCKS` distinct blocks exactly if the first section, of `maxChunk` bytes
at most, does. -/
theorem filewrite_quota_iff (hL : Laid E first) (hC : Consistent E s)
    (hopen : (s.ftable f).isInode = true) (hw : (s.ftable f).writable = true)
    (hoff : (s.ftable f).off < 2 ^ 32) (hk : 0 < (s.icache (s.ftable f).ip).ref)
    (hprt : (s.icache (s.ftable f).ip).prt = some p)
    (htype : (dinodeAt E s.disk p (s.icache (s.ftable f).ip).inum).type = T_FILE) (n r : Int)
    (hrun : filewrite E.code f addr n s = .ok (r, s')) :
    ∃ ls, s'.logged = ls ++ s.logged ∧ ((∀ l ∈ ls, l.toFinset.card ≤ MAXOPBLOCKS) ↔
      sectionBlocks (dinodeAt E s.disk p (s.icache (s.ftable f).ip).inum) s.disk
        (s.ftable f).off (min n.toNat maxChunk) ≤ MAXOPBLOCKS) := by
  obtain ⟨d, hd⟩ : ∃ d, d = dinodeAt E s.disk p (s.icache (s.ftable f).ip).inum := ⟨_, rfl⟩
  rw [← hd]
  unfold filewrite at hrun
  obtain ⟨_, _, hget, hrun⟩ := bind_ok hrun
  cases hget
  simp only [hw, hopen, Bool.not_true, Bool.false_eq_true, ↓reduceIte] at hrun
  obtain ⟨j, s1, hloop, hpure⟩ := bind_ok hrun
  cases hpure
  cases hm : n.toNat with
  | zero =>
    rw [hm] at hloop
    cases hloop
    refine ⟨[], rfl, fun _ => ?_, by simp⟩
    rw [Nat.zero_min, sectionBlocks_zero]
    exact Nat.zero_le _
  | succ m =>
    rw [hm] at hloop
    unfold filewriteLoop at hloop
    simp only [Nat.le_zero_eq, Nat.add_eq_zero_iff, one_ne_zero, and_false, ↓reduceIte,
      Nat.sub_zero] at hloop
    obtain ⟨r1, s2, hsec, hrest⟩ := bind_ok hloop
    obtain ⟨l, hl⟩ := writeSection_logged hsec
    have hmax : min (m + 1) maxChunk < 2 ^ 32 :=
      Nat.lt_of_le_of_lt (Nat.min_le_right _ _) (by decide)
    have hroom : Room E.code p 1000 s.disk (fun _ => True)
      ((dinodeAt E.code s.disk p (s.icache (s.ftable f).ip).inum).need
        s.disk (s.ftable f).off (min (m + 1) maxChunk)) :=
      ⟨Nat.le_refl _, ⟨Nat.succ_pos _, Nat.le_refl _⟩, .inr ⟨rfl, trivial⟩⟩
    have hlaid : Laid E.code first := ⟨hL.pos, hL.offset, hL.bound⟩
    have hspec : (writeSection E.code f addr 0 (min (m + 1) maxChunk)).wp (fun r t =>
        t.curLog.toFinset.card = sectionBlocks d s.disk (s.ftable f).off (min (m + 1) maxChunk) ∧
        r = if d.Refuses (s.ftable f).off (min (m + 1) maxChunk) then -1
        else ((min (m + 1) maxChunk : Nat) : Int))
        (fun _ => True) s := by
      rw [hd]
      exact writeSection_wp hlaid (hC.env rfl) rfl rfl hk hprt rfl htype hoff hmax
        (fun _ => trivial) (by decide)
        (Nat.le_refl _) hroom 0 fun s' hs' => ⟨hs', rfl⟩
    obtain ⟨hcard, hr⟩ := wp_ok hspec hsec
    have hcur : s2.curLog = l := by rw [FsState.curLog, hl]; rfl
    rw [hcur] at hcard
    by_cases hbad : d.Refuses (s.ftable f).off (min (m + 1) maxChunk)
    · -- the first section is refused and the loop is left
      rw [if_pos hbad] at hr
      rw [hr, if_pos (by decide)] at hrest
      cases hrest
      exact ⟨[l], hl, by rw [← hcard]; simp⟩
    · rw [if_neg hbad] at hr
      rw [hr, if_neg (by omega), if_neg (by simp)] at hrest
      obtain ⟨ls, hls⟩ := filewriteLoop_logged _ _ _ _ _ _ hrest
      by_cases hone : m + 1 ≤ maxChunk
      · -- all of it went into one section
        have hdone : s' = s2 := by
          cases m with
          | zero => cases hrest; rfl
          | succ m =>
            unfold filewriteLoop at hrest
            rw [if_pos (by omega)] at hrest
            cases hrest; rfl
        rw [hdone]
        exact ⟨[l], hl, by rw [← hcard]; simp⟩
      · have hfull : min (m + 1) maxChunk = maxChunk := by omega
        rw [hfull] at hcard hbad ⊢
        have := sectionBlocks_maxChunk hbad s.disk
        have hquota : MAXOPBLOCKS = 10 := rfl
        refine ⟨ls ++ [l], by rw [hls, hl, List.append_assoc]; rfl, fun hall => ?_,
          fun hle => by omega⟩
        rw [← hcard]
        exact hall l (by simp)

/-! ## A write that breaks the quota -/

/-- A write that fits into one section, and for which there are free blocks, succeeds. -/
theorem filewrite_section (addr : Nat → UInt8) (hL : Laid E first) (hC : Consistent E s)
    (hopen : (s.ftable f).isInode = true)
    (hw : (s.ftable f).writable = true) (hoff : (s.ftable f).off < 2 ^ 32)
    (hk : 0 < (s.icache (s.ftable f).ip).ref)
    (hprt : (s.icache (s.ftable f).ip).prt = some p)
    (hidle : (s.icache (s.ftable f).ip).busy = false)
    (htype : (dinodeAt E s.disk p (s.icache (s.ftable f).ip).inum).type = T_FILE)
    (hn : n + 1 ≤ maxChunk)
    (hgood : ¬ (dinodeAt E s.disk p (s.icache (s.ftable f).ip).inum).Refuses
      (s.ftable f).off (n + 1))
    (hfree : (dinodeAt E s.disk p (s.icache (s.ftable f).ip).inum).need s.disk (s.ftable f).off
      (n + 1) ≤ freeBlocks E s p) :
    ∃ s' l, filewrite E.code f addr ((n + 1 : Nat) : Int) s = .ok (((n + 1 : Nat) : Int), s') ∧
    s'.logged = l :: s.logged ∧
      l.toFinset.card = sectionBlocks (dinodeAt E s.disk p (s.icache (s.ftable f).ip).inum) s.disk
        (s.ftable f).off (n + 1) := by
  have hlaid : Laid E.code first := ⟨hL.pos, hL.offset, hL.bound⟩
  have hscan : E.code.scan (sbAt (E.code.offset p)) = 1000 := rfl
  have hroom : Room E.code p Mkfs.superblock.nblocks s.disk (fun _ => False)
      ((dinodeAt E.code s.disk p (s.icache (s.ftable f).ip).inum).need s.disk
        (s.ftable f).off (n + 1)) :=
    ⟨by rw [hscan]; decide, by rw [hscan]; decide, .inl hfree⟩
  have hsec : ∃ r s', writeSection E.code f addr 0 (n + 1) s = .ok (r, s') ∧
    r = ((n + 1 : Nat) : Int) ∧ s'.curLog.toFinset.card =
        sectionBlocks (dinodeAt E s.disk p (s.icache (s.ftable f).ip).inum) s.disk
          (s.ftable f).off (n + 1) := by
    rw [← wp_total]
    refine writeSection_wp hlaid (hC.env rfl) rfl rfl hk hprt rfl htype hoff
      (Nat.lt_of_le_of_lt hn (by decide)) (fun hb => ?_) (Nat.le_refl _) (by decide) hroom 0
        fun s' hs' => ⟨if_neg hgood, hs'⟩
    rw [hidle] at hb
    cases hb
  obtain ⟨_, s2, hsec, rfl, hcard⟩ := hsec
  obtain ⟨l, hl⟩ := writeSection_logged hsec
  have hcur : s2.curLog = l := by rw [FsState.curLog, hl]; rfl
  have hrun : ∃ r s', filewrite E.code f addr ((n + 1 : Nat) : Int) s = .ok (r, s') ∧
      r = ((n + 1 : Nat) : Int) ∧ s' = s2 := by
    rw [← wp_total, filewrite, wp_bind, wp_get]
    simp only [hw, hopen, Bool.not_true, Bool.false_eq_true, ↓reduceIte, Int.toNat_natCast]
    rw [wp_bind, filewriteLoop, if_neg (by omega), Nat.sub_zero, Nat.min_eq_left hn, wp_bind,
      wp_run hsec, if_neg (by omega), if_neg (by simp)]
    cases n with
    | zero => rw [filewriteLoop, wp_pure, wp_pure]; simp
    | succ n => rw [filewriteLoop, if_pos (by omega), wp_pure, wp_pure]; simp
  obtain ⟨_, _, hrun, rfl, rfl⟩ := hrun
  exact ⟨_, l, hrun, hl, hcur ▸ hcard⟩

/-- The empty file of `demoDisk` opened for writing. -/
def openState : FsState :=
  { demoState.withInode 0 ⟨1, 1, false, true, some 0, demoInode⟩ with
    ftable := Function.update demoState.ftable 0 ⟨true, 1, true, true, 0, 0, false⟩ }

theorem consistent_openState : Consistent demoEnv openState := by
  have hslot : Slot demoEnv demoState.disk ⟨1, 1, false, true, some 0, demoInode⟩ := by
    refine ⟨fun p hp => ?_, fun _ => ⟨0, rfl, dinodeAt_demoDisk_one.symm, by decide⟩⟩
    obtain rfl : 0 = p := Option.some.inj hp
    exact ⟨by decide, by decide⟩
  have hC : Consistent demoEnv (demoState.withInode 0 ⟨1, 1, false, true, some 0, demoInode⟩) := by
    exact consistent_demoState.withInode (fun _ => hslot) fun k' hne _ hk' =>
      absurd (slot_demoState hk') hne
  exact ⟨hC.vol, hC.slot, hC.unique⟩

theorem filewrite_openState (addr : Nat → UInt8) (hn : n + 1 ≤ maxChunk) :
    ∃ s' l, filewrite demoEnv.code 0 addr ((n + 1 : Nat) : Int) openState =
      .ok (((n + 1 : Nat) : Int), s') ∧
      s'.logged = l :: openState.logged ∧ l.toFinset.card =
        sectionBlocks demoInode demoDisk 0 (n + 1) := by
  have hd : dinodeAt demoEnv openState.disk 0 1 = demoInode := dinodeAt_demoDisk_one
  have hfree : demoInode.need openState.disk 0 (n + 1) ≤ freeBlocks demoEnv openState 0 :=
    (need_le _).trans (by
      rw [freeBlocks, show openState.disk = demoDisk from rfl, freeBlocks_demoDisk]
      decide)
  have hgood : ¬ demoInode.Refuses 0 (n + 1) := by
    rintro (h | h)
    · cases h
    · simp only [maxChunk, LOGSIZE, MAXOPBLOCKS, MAXFILE, NDIRECT, NINDIRECT, BSIZE] at *
      omega
  have h := filewrite_section (f := 0)
    (p := 0) addr laid_demoEnv consistent_openState rfl rfl (by decide) (by decide) rfl rfl
    (by show (dinodeAt demoEnv openState.disk 0 1).type = _; rw [hd]; rfl) hn
    (by show ¬ (dinodeAt demoEnv openState.disk 0 1).Refuses 0 _; rw [hd]; exact hgood)
    (by show (dinodeAt demoEnv openState.disk 0 1).need _ 0 _ ≤ _; rw [hd]; exact hfree)
  have hd' : dinodeAt demoEnv openState.disk 0 (openState.icache (openState.ftable 0).ip).inum =
      demoInode := hd
  rw [hd'] at h
  exact h

/-- A full section logs 16 blocks: 13 of data, the indirect block, the bitmap and the inode. -/
theorem quota_exceeded : Consistent demoEnv openState ∧
    (dinodeAt demoEnv openState.disk 0 1).type = T_FILE ∧
    ∃ s' l, filewrite demoEnv.code 0 (fun _ => 0) 6656 openState = .ok (6656, s') ∧
    s'.logged = l :: openState.logged ∧ MAXOPBLOCKS < l.toFinset.card := by
  refine ⟨consistent_openState,
    by rw [show dinodeAt demoEnv openState.disk 0 1 = _ from dinodeAt_demoDisk_one]; rfl, ?_⟩
  obtain ⟨s', l, hrun, hl, hcard⟩ := filewrite_openState (n := 6655) (fun _ => 0) (by decide)
  refine ⟨s', l, hrun, hl, ?_⟩
  have : 13 ≤ sectionBlocks demoInode demoDisk 0 maxChunk :=
    sectionBlocks_maxChunk (by decide) demoDisk
  rw [hcard]
  exact Nat.lt_of_lt_of_le (by decide) this

/-- One byte written to an empty file: its block, the bitmap and the inode. -/
theorem filewrite_quota_iff_demo :
    ∃ s' ls, filewrite demoEnv.code 0 (fun _ => 0) 1 openState = .ok (1, s') ∧
    s'.logged = ls ++ openState.logged ∧ ∀ l ∈ ls, l.toFinset.card ≤ MAXOPBLOCKS := by
  obtain ⟨s', l, hrun, -⟩ := filewrite_openState (n := 0) (fun _ => 0) (by decide)
  have hd : dinodeAt demoEnv openState.disk 0 (openState.icache (openState.ftable 0).ip).inum =
      demoInode :=
    dinodeAt_demoDisk_one
  obtain ⟨ls, hls, hiff⟩ :=
    filewrite_quota_iff (p := 0) laid_demoEnv consistent_openState rfl rfl
    (by decide) (by decide) rfl
    (by rw [hd]; rfl) 1 1 hrun
  refine ⟨s', ls, hrun, hls, hiff.2 ?_⟩
  rw [hd]
  show sectionBlocks demoInode demoDisk 0 1 ≤ 10
  decide +kernel

end Os4.Fs
