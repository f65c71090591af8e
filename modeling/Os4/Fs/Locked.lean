import Os4.Fs.Accounts
import Os4.Fs.Quota
/-!
# A section of `filewrite` under the lock (file.c:131-138)

| here | there |
| --- | --- |
| `lockedWrite` | the section from the point where `ilock` has `I_BUSY` to the point before `iunlock` |
| `Alike` | what a section sees of another one that waits for the lock: `begin_op` and `end_op` |
| `Settled` | a file that is open for writing, with its bytes and the offset |

The steps of the section are those of the sequential code (`run_writei`), and none of them depends
on what other processes do to the log in between (`steady_lockedWrite`). So the section does what it
does alone: **`lockedWrite_wp`**.
-/
namespace Os4.Fs

open Prog
open Par (act)
open Thread (run_bind run_step)

variable {E : Env} {α β : Type} {k : Fin NINODE} {f : Fin NFILE} {p : Int} {i off n : Nat}
  {s s' : FsState} {src bytes : List UInt8}

/-! ## The steps alone -/

@[simp] theorem run_act (m : FsM α) : (act m).run = m := run_step _ m

theorem run_addrOrAlloc (j : Fin (NDIRECT + 1)) :
    (Par.addrOrAlloc E k j).run = addrOrAlloc E k j := by
  unfold Par.addrOrAlloc addrOrAlloc
  rw [run_bind, run_act]
  congr 1
  funext ip
  split
  · exact run_step _ _
  · rfl

theorem run_entryOrAlloc (a j : Nat) : (Par.entryOrAlloc E k a j).run = entryOrAlloc E k a j := by
  unfold Par.entryOrAlloc entryOrAlloc
  rw [run_bind, run_act]
  congr 1
  funext x
  split
  · rw [run_bind, run_act]
    congr 1
    funext ip
    exact run_step _ _
  · rfl

theorem run_bmap (bn : Nat) : (Par.bmap E k bn).run = bmap E k bn := by
  unfold Par.bmap bmap
  by_cases hn : bn < NDIRECT
  · rw [dif_pos hn, dif_pos hn]
    exact run_addrOrAlloc _
  · rw [dif_neg hn, dif_neg hn]
    by_cases hi : bn - NDIRECT < NINDIRECT
    · rw [if_pos hi, if_pos hi, run_bind, run_addrOrAlloc]
      exact congrArg _ (funext fun a => run_entryOrAlloc a _)
    · rw [if_neg hi, if_neg hi]
      exact run_act _

theorem run_writeLoop : ∀ (fuel off : Nat) (src : List UInt8),
    (Par.writeLoop E k fuel off src).run = writeLoop E k fuel off src
  | 0, _, _ => rfl
  | fuel + 1, off, src => by
    unfold Par.writeLoop writeLoop
    split
    · rfl
    · rw [run_bind, run_bmap]
      refine congrArg _ (funext fun b => ?_)
      rw [run_bind, run_step, Par.putBytes, bind_assoc]
      refine congrArg _ (funext fun x => congrArg _ (funext fun _ => ?_))
      exact run_writeLoop fuel _ _

/-- The end of `writei`, where the steps read the inode once more. -/
theorem run_writeEnd (m : Nat) : (do
      let ip ← act (inode k)
      if 0 < n ∧ ip.din.size < m then .step (.store k) (Par.storeSize E k m)
      return (n : Int) : Code Int).run = (do
      let ip ← inode k
      if 0 < n ∧ ip.din.size < m then
        setDin k { ip.din with size := m }
        iupdate E k
      return (n : Int)) := by
  funext s
  have hread : inode k s = .ok (s.icache k, s) := rfl
  rw [run_bind, run_act, bind_of_ok hread, bind_of_ok hread]
  by_cases hc : 0 < n ∧ (s.icache k).din.size < m
  · rw [if_pos hc, if_pos hc, run_bind, run_step, Par.storeSize, bind_assoc,
      bind_of_ok hread, bind_assoc]
    rfl
  · rw [if_neg hc, if_neg hc]
    rfl

theorem run_writei (src : List UInt8) (off : Nat) :
    (Par.writei E k src off).run = writei E k src off := by
  unfold Par.writei writei
  rw [run_bind, run_act]
  refine congrArg _ (funext fun ip => ?_)
  dsimp only
  by_cases hdev : ip.din.type = T_DEV
  · rw [if_pos hdev, if_pos hdev]
    by_cases hmajor : ip.din.major < 0 ∨ (NDEV : Int) ≤ ip.din.major
    · rw [if_pos hmajor, if_pos hmajor]
      rfl
    · rw [if_neg hmajor, if_neg hmajor]
      cases E.devWrite ip.din.major with
      | none => rfl
      | some f => rfl
  · rw [if_neg hdev, if_neg hdev]
    by_cases hoff : ip.din.size < off ∨ (off + src.length) % 2 ^ 32 < off
    · rw [if_pos hoff, if_pos hoff]
      rfl
    · rw [if_neg hoff, if_neg hoff]
      by_cases hmax : MAXFILE * BSIZE < off + src.length
      · rw [if_pos hmax, if_pos hmax]
        rfl
      · rw [if_neg hmax, if_neg hmax, run_bind, run_writeLoop]
        exact congrArg _ (funext fun _ => run_writeEnd _)

/-! ## The steps among others -/

/-- The file `f` is open for writing on the inode of slot `k`. -/
structure Opened (f : Fin NFILE) (k : Fin NINODE) (s : FsState) : Prop where
  isInode : (s.ftable f).isInode = true
  isPipe : (s.ftable f).isPipe = false
  writable : (s.ftable f).writable = true
  ip : (s.ftable f).ip = k

theorem Opened.congr (h : Opened f k s)
    (hf : s'.ftable f = { s.ftable f with off := (s'.ftable f).off }) : Opened f k s' where
  isInode := by rw [hf]; exact h.isInode
  isPipe := by rw [hf]; exact h.isPipe
  writable := by rw [hf]; exact h.writable
  ip := by rw [hf]; exact h.ip

/-- `s` is `r` for a process that holds the lock of `k`: only the log's count and its lists may
differ. -/
structure Alike (f : Fin NFILE) (k : Fin NINODE) (r s : FsState) : Prop where
  logging : 0 < r.outstanding
  busy : (r.icache k).busy = true
  opened : Opened f k r
  same : s = { r with outstanding := s.outstanding, logged := s.logged }

namespace Alike

variable {r : FsState} (h : Alike f k r s)
include h

theorem disk : r.disk = s.disk := by rw [h.same]

theorem icache : r.icache = s.icache := by rw [h.same]

theorem ftable : r.ftable = s.ftable := by rw [h.same]

theorem update {r' : FsState} (hlog : r'.outstanding = r.outstanding)
    (hbusy : (r'.icache k).busy = (r.icache k).busy)
    (hopen : Opened f k r') (hsame : s' =
      { r' with outstanding := s'.outstanding, logged := s'.logged }) : Alike f k r' s' :=
  ⟨by rw [hlog]; exact h.logging, by rw [hbusy]; exact h.busy, hopen, hsame⟩

theorem log (hsame : s' = { s with outstanding := s'.outstanding, logged := s'.logged }) :
    Alike f k r s' :=
  ⟨h.logging, h.busy, h.opened, by rw [hsame, h.same]⟩

end Alike

theorem mirrors_inode {k' : Fin NINODE} : (inode k').Mirrors (Alike f k) :=
  .read fun _ _ h => by rw [h.icache]

theorem mirrors_bread (b : Nat) : (bread b).Mirrors (Alike f k) := .read fun _ _ h => by rw [h.disk]

theorem mirrors_logWrite (b : Nat) (x : Block) : (logWrite b x).Mirrors (Alike f k) := by
  intro r s a s' h hm
  have hs : (logWrite b x).wp (fun _ s' => s' = s.put b x) (fun _ => True) s :=
    (wp_logWrite b x).2 ⟨fun _ => rfl, fun _ => trivial⟩
  have hr : (logWrite b x).wp (fun _ r' => r' = r.put b x) (fun _ => False) r :=
    (wp_logWrite b x).2 ⟨fun _ => rfl, fun h0 => by have := h.logging; omega⟩
  obtain ⟨⟨⟩, _, hr, rfl⟩ := wp_total.1 hr
  obtain rfl : s' = s.put b x := wp_ok (Q := fun _ s' => s' = s.put b x) hs hm
  refine ⟨_, hr, h.update rfl rfl (h.opened.congr rfl) ?_⟩
  rw [FsState.put, FsState.put, h.disk, h.same]

theorem mirrors_setDin (d : Dinode) : (setDin k d).Mirrors (Alike f k) := .modify fun r s h =>
  h.update rfl (by show ((r.withDin k d).icache k).busy = _; rw [withDin_self])
    (h.opened.congr rfl) (by rw [h.same])

theorem mirrors_readsb (prt : Option Int) : (readsb E prt).Mirrors (Alike f k) := by
  refine Mirrors.bind ?_ fun _ => (mirrors_bread _).bind fun _ => .pure _
  cases prt with
  | none => exact .throw _
  | some p => exact .pure _

theorem mirrors_ballocFrom (sb : Superblock) :
    ∀ bs : List Nat, (ballocFrom E sb bs).Mirrors (Alike f k)
  | [] => .throw _
  | b :: bs => by
    refine (mirrors_bread _).bind fun x => ?_
    split
    · exact (mirrors_logWrite _ _).bind fun _ => (mirrors_logWrite _ _).bind fun _ => .pure _
    · exact mirrors_ballocFrom sb bs

theorem mirrors_balloc (prt : Option Int) : (balloc E prt).Mirrors (Alike f k) :=
  (mirrors_readsb prt).bind fun sb => mirrors_ballocFrom sb _

theorem mirrors_iupdate : (iupdate E k).Mirrors (Alike f k) :=
  mirrors_inode.bind fun _ => (mirrors_readsb _).bind fun _ => (mirrors_bread _).bind fun _ =>
    mirrors_logWrite _ _

/-- Every step goes as it goes alone. -/
abbrev Steady (f : Fin NFILE) (k : Fin NINODE) (t : Code α) : Prop :=
  t.Each fun _ m => m.Mirrors (Alike f k)

theorem steady_act {m : FsM α} (h : m.Mirrors (Alike f k)) : Steady f k (act m) := .step h

theorem steady_addrOrAlloc (j : Fin (NDIRECT + 1)) : Steady f k (Par.addrOrAlloc E k j) := by
  refine (steady_act mirrors_inode).bind fun ip => ?_
  split
  · exact .step ((mirrors_balloc _).bind fun _ => (mirrors_setDin _).bind fun _ => .pure _)
  · exact trivial

theorem steady_entryOrAlloc (a j : Nat) : Steady f k (Par.entryOrAlloc E k a j) := by
  refine (steady_act (mirrors_bread a)).bind fun x => ?_
  split
  · refine (steady_act mirrors_inode).bind fun ip => .step ?_
    exact (mirrors_balloc _).bind fun _ => (mirrors_logWrite _ _).bind fun _ => .pure _
  · exact trivial

theorem steady_bmap (bn : Nat) : Steady f k (Par.bmap E k bn) := by
  unfold Par.bmap
  split
  · exact steady_addrOrAlloc _
  · split
    · exact (steady_addrOrAlloc _).bind fun a => steady_entryOrAlloc a _
    · exact steady_act (.throw _)

theorem steady_writeLoop :
    ∀ (fuel off : Nat) (src : List UInt8), Steady f k (Par.writeLoop E k fuel off src)
  | 0, _, _ => trivial
  | fuel + 1, off, src => by
    unfold Par.writeLoop
    split
    · exact trivial
    · refine (steady_bmap _).bind fun b => Thread.Each.bind (.step ?_) fun _ =>
        steady_writeLoop fuel _ _
      exact (mirrors_bread b).bind fun _ => mirrors_logWrite b _

theorem steady_writei (src : List UInt8) (off : Nat) : Steady f k (Par.writei E k src off) := by
  refine (steady_act mirrors_inode).bind fun ip => ?_
  dsimp only
  split
  · split
    · exact trivial
    · split <;> exact trivial
  · split
    · exact trivial
    · split
      · exact trivial
      · refine (steady_writeLoop _ _ _).bind fun _ => (steady_act mirrors_inode).bind fun ip => ?_
        split
        · refine Thread.Each.bind (.step ?_) fun _ => trivial
          exact mirrors_inode.bind fun _ => (mirrors_setDin _).bind fun _ => mirrors_iupdate
        · exact trivial

/-- The inode that `ilock` reads from the disk. -/
def readDinode (E : Env) (disk : Disk) (p : Int) (inum : Nat) : Dinode :=
  getDinode (disk (inum / IPB + ((getSuperblock (disk (E.offset p))).inodestart + E.offset p)))
    (inum % IPB)

theorem load_eq (hprt : (s.icache k).prt = some p) : Par.load E k s =
    if (s.icache k).valid = true then .ok ((), s)
    else if (readDinode E s.disk p (s.icache k).inum).type = 0 then .error .ilockNoType
    else .ok ((), s.withInode k { s.icache k with
      valid := true, din := readDinode E s.disk p (s.icache k).inum }) := by
  have hread : inode k s = .ok (s.icache k, s) := rfl
  have hsb : readsb E (some p) s = .ok ({ getSuperblock (s.disk (E.offset p)) with
      logstart := (getSuperblock (s.disk (E.offset p))).logstart + E.offset p
      inodestart := (getSuperblock (s.disk (E.offset p))).inodestart + E.offset p
      bmapstart := (getSuperblock (s.disk (E.offset p))).bmapstart + E.offset p }, s) := rfl
  unfold Par.load readDinode
  rw [bind_of_ok hread, hprt, bind_of_ok hsb]
  by_cases hv : (s.icache k).valid = true
  · rw [if_pos hv, if_pos hv]
    rfl
  · rw [if_neg hv, if_neg hv]
    dsimp only
    generalize (s.icache k).inum / IPB + _ = b
    have hbread : bread b s = .ok (s.disk b, s) := rfl
    rw [bind_of_ok hbread]
    by_cases h0 : (getDinode (s.disk b) ((s.icache k).inum % IPB)).type = 0
    · rw [if_pos h0, if_pos h0]
      rfl
    · rw [if_neg h0, if_neg h0, ← hprt]
      rfl

theorem mirrors_load : (Par.load E k).Mirrors (Alike f k) := by
  intro r s a s' h hm
  cases hprt : (s.icache k).prt with
  | none =>
    obtain ⟨ip, _, hread, hm⟩ := bind_ok hm
    cases hread
    rw [hprt] at hm
    cases hm
  | some p =>
    rw [load_eq hprt, ← h.icache, ← h.disk] at hm
    rw [← h.icache] at hprt
    rw [load_eq hprt]
    by_cases hv : (r.icache k).valid = true
    · rw [if_pos hv] at hm ⊢
      cases hm
      exact ⟨r, rfl, h⟩
    · rw [if_neg hv] at hm ⊢
      by_cases h0 : (readDinode E r.disk p (r.icache k).inum).type = 0
      · rw [if_pos h0] at hm
        cases hm
      · rw [if_neg h0] at hm ⊢
        cases hm
        refine ⟨_, rfl, h.update rfl ?_ (h.opened.congr rfl) ?_⟩
        · rw [withInode_self]
        · rw [FsState.withInode, FsState.withInode, h.same]

theorem mirrors_advance (n : Int) : (advance f n).Mirrors (Alike f k) := by
  intro r s a s' h hm
  unfold advance at hm ⊢
  rw [get_bind] at hm ⊢
  by_cases hn : 0 < n
  · rw [if_pos hn] at hm ⊢
    cases hm
    refine ⟨r.withFile f { r.ftable f with off := (r.ftable f).off + n.toNat }, rfl,
      h.update rfl rfl (h.opened.congr ?_) ?_⟩
    · rw [withFile_self]
    · rw [FsState.withFile, h.same]
  · rw [if_neg hn] at hm ⊢
    cases hm
    exact ⟨r, rfl, h⟩

/-! ## The section -/

def lockedWrite (E : Env) (f : Fin NFILE) (k : Fin NINODE) (src : List UInt8) : Code Int := do
  act (Par.load E k)
  let y ← act (Par.fileAt f)
  let r ← Par.writei E k src y.off
  act (advance f r)
  return r

theorem steady_lockedWrite (src : List UInt8) : Steady f k (lockedWrite E f k src) := by
  refine (steady_act mirrors_load).bind fun _ =>
    (steady_act (.read fun _ _ h => by rw [h.ftable])).bind fun y => ?_
  exact (steady_writei _ _).bind fun r => (steady_act (mirrors_advance r)).bind fun _ => trivial

/-- The file `f` is open for writing on the regular file `i` of partition `p`, which slot `k`
caches. Its bytes are `bytes`, and `f` is at `off`. -/
structure Settled (E : Env) (f : Fin NFILE) (k : Fin NINODE) (p : Int) (i : Nat)
    (bytes : List UInt8) (off : Nat) (s : FsState) : Prop where
  file : Opened f k s
  pos : (s.ftable f).off = off
  small : off < 2 ^ 32
  slot : (s.icache k).prt = some p ∧ (s.icache k).inum = i
  loaded : (s.icache k).valid = true → (s.icache k).din = dinodeAt E s.disk p i
  vol : Vol E p 1000 s.disk (dinodeAt E s.disk p)
  bound : i < NINODES
  type : (dinodeAt E s.disk p i).type = T_FILE
  holds : content s.disk (dinodeAt E s.disk p i) = bytes

variable {Q : Unit → FsState → Prop} {F : Panic → Prop}

namespace Settled

variable (h : Settled E f k p i bytes off s)
include h

theorem congr (hdisk : s'.disk = s.disk) (hftable : s'.ftable = s.ftable)
    (hslot : s'.icache k = { s.icache k with busy := (s'.icache k).busy }) :
    Settled E f k p i bytes off s' := by
  refine ⟨h.file.congr (by rw [hftable]), ?_, h.small, ?_, ?_, ?_, h.bound, ?_, ?_⟩
  · rw [hftable]; exact h.pos
  · rw [hslot]; exact h.slot
  · rw [hslot, hdisk]; exact h.loaded
  · rw [hdisk]; exact h.vol
  · rw [hdisk]; exact h.type
  · rw [hdisk]; exact h.holds

theorem live : Live (dinodeAt E s.disk p) i := ⟨h.bound, by rw [h.type]; decide⟩

theorem readDinode_eq : readDinode E s.disk p i = dinodeAt E s.disk p i := by
  unfold readDinode dinodeAt inodeBlock
  rw [h.vol.sb, show i / IPB + (Mkfs.superblock.inodestart + E.offset p) =
    E.offset p + 31 + i / IPB by
    show i / IPB + (31 + E.offset p) = _; omega]

theorem load_wp (hQ : ∀ s', Settled E f k p i bytes off s' →
    (s'.icache k).din = dinodeAt E s'.disk p i → Q () s') : (Par.load E k).wp Q F s := by
  unfold wp
  rw [load_eq h.slot.1]
  by_cases hv : (s.icache k).valid = true
  · rw [if_pos hv]
    exact hQ s h (h.loaded hv)
  · rw [if_neg hv, h.slot.2, h.readDinode_eq, if_neg (by rw [h.type]; decide)]
    refine hQ _ ⟨h.file.congr rfl, h.pos, h.small, ?_, fun _ => ?_, h.vol, h.bound,
      h.type, h.holds⟩ ?_
    · rw [withInode_self]; exact h.slot
    · rw [withInode_self]; rfl
    · rw [withInode_self]; rfl

theorem advance_wp (hpos : 0 < n) (hn : off + n < 2 ^ 32)
    (hQ : ∀ s', Settled E f k p i bytes (off + n) s' → Q () s') :
    (advance f (n : Int)).wp Q F s := by
  unfold advance
  rw [wp_bind, wp_get, if_pos (by omega)]
  show Q () (s.withFile f _)
  refine hQ _ ⟨h.file.congr (by rw [withFile_self]), ?_, hn, h.slot, h.loaded, h.vol,
    h.bound, h.type, h.holds⟩
  rw [withFile_self, Int.toNat_natCast, h.pos]

end Settled

theorem Writei.settled {T' : Nat → Dinode} (h : Settled E f k p i bytes off s)
    (hW : Writei E p 1000 k i off src s (dinodeAt E s.disk p) s' T') :
    Settled E f k p i (overwrite bytes off src) off s' := by
  have hdin : dinodeAt E s'.disk p i = T' i := hW.synced rfl
  have htable : ∀ j, j < NINODES → dinodeAt E s'.disk p j = T' j := fun j hj => by
    by_cases hji : j = i
    · rw [hji, hdin]
    · rw [hW.dinodes j hj hji, hW.table j hji]
  refine ⟨h.file.congr (by rw [hW.touch.framed.ftable]), ?_, h.small, ?_, fun _ => ?_,
    hW.vol.table_congr htable, h.bound, ?_, ?_⟩
  · rw [hW.touch.framed.ftable]; exact h.pos
  · rw [hW.touch.slot]; exact h.slot
  · rw [hW.din, hdin]
  · rw [hdin, hW.fields]; exact h.type
  · rw [hdin, hW.content, h.holds]

/-- **The section writes its bytes at the offset and advances it, or fails.** -/
theorem lockedWrite_wp (hoffset : E.offset p + 1000 ≤ 2 ^ 28)
    (h : Settled E.code f k p i bytes off s) (hpos : 0 < src.length) (hlen : src.length < 2 ^ 32) :
    (lockedWrite E.code f k src).run.wp (fun r s' => r = -1 ∨ r = src.length ∧ off ≤ bytes.length ∧
      Settled E.code f k p i (overwrite bytes off src) (off + src.length) s')
        (fun _ => True) s := by
  unfold lockedWrite
  rw [run_bind, run_act, wp_bind]
  refine h.load_wp fun s1 h1 hdin => ?_
  rw [run_bind, run_act, wp_bind, wp_fileAt, h1.pos, run_bind, run_writei, wp_bind]
  have hdev : (dinodeAt E.code s1.disk p i).type ≠ T_DEV := by rw [h1.type]; decide
  have hsize : (dinodeAt E.code s1.disk p i).size = bytes.length := by
    rw [← h1.holds, length_content]
  have hend : ∀ (r : Int) (t : FsState) (Q : Int → FsState → Prop),
    (advance f r).wp (fun _ t' => Q r t') (fun _ => True) t →
      (Thread.run (do act (advance f r); return r : Code Int)).wp Q (fun _ => True) t :=
        fun r t Q hQ => by
    rw [run_bind, run_act, wp_bind]
    exact hQ
  by_cases hbad : (dinodeAt E.code s1.disk p i).Refuses off src.length
  · rw [wp_run (writei_bad h.small hlen (by rw [hdin]; exact hdev)
      (by rw [hdin]; exact hbad.imp_right .inr))]
    refine hend _ _ _ (wp_of_ok (fun _ _ _ => .inl rfl) fun _ _ => trivial)
  · obtain ⟨hoff, hmax⟩ := not_or.1 hbad
    have hroom : Room E.code p 1000 s1.disk (fun _ => True)
        ((dinodeAt E.code s1.disk p i).need s1.disk off src.length) :=
      ⟨Nat.le_refl _, ⟨Nat.succ_pos _, Nat.le_refl _⟩, .inr ⟨rfl, trivial⟩⟩
    refine writei_wp h1.vol (Nat.le_refl _) hoffset h1.live h1.slot.1 h1.slot.2 hdin hdev
      (by omega) (by omega) hroom
      (fun _ => trivial) fun s2 T' hW => hend _ _ _ ?_
    have hfit : off + src.length < 2 ^ 32 := by
      simp only [MAXFILE, NDIRECT, NINDIRECT, BSIZE] at hmax
      omega
    exact (hW.settled h1).advance_wp hpos hfit fun s3 h3 => .inr ⟨rfl, by omega, h3⟩

end Os4.Fs
