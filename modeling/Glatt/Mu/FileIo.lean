import Glatt.Fs.Service
import Glatt.Storage.TarfsRead

/-!
# Files of user programs

`read` and `close` of `libmu/file_io.c`, which are requests by messages to the service of an open
file: what `ipc_request` makes of the reply, and what the handlers of `fs/fs_ipc_file.c` reply for a
file of an archive.

The service of `Glatt.Fs.Service` tells which operations a handler calls; here the bytes that a read
puts into the page of its request are told as well. A message that is sent is delivered.

## Main definitions

* `FileService`: an open file
* `Libmu.read`, `Libmu.close`: the functions

## Main results

* `Libmu.read_on`: a read returns a piece of the file, which ends with the block
-/

namespace Glatt

open Imperative Buffer List

/-! ## Requests -/

structure PageMessage where
  header : IpcHeader
  page : Option (ℕ → UInt8)

/-- `struct ipc_response_message`: the parameter and the page of a reply, or the number of an
error. -/
inductive IpcResponse
  | reply (param : UInt64) (page : Option (ℕ → UInt8))
  | error (code : UInt32)

/-- The loop body of `ipc_request` on a message that has been received: whether it is the reply to
the request `reqh`, and what it says. -/
def ipcRequestReply (reqh : IpcHeader) (data : Bool) (m : PageMessage) :
    Option (Except Errno IpcResponse) :=
  if m.header.ipchdrSrc ≠ reqh.ipchdrDst then none
  else if m.header.ipchdrMsg &&& 0x0fff ≠ reqh.ipchdrMsg &&& 0x0fff ∨
      m.header.ipchdrCookie ≠ reqh.ipchdrCookie then some (.error .unexpected)
  else if m.header.ipchdrMsg &&& 0xf000 = 0x1000 then
    some (.ok (.reply m.header.ipchdrParam (if data then m.page else none)))
  else if m.header.ipchdrMsg &&& 0xf000 = 0x2000 then
    if data ∧ m.page.isSome then some (.error .unexpected)
    else if m.header.ipchdrParam = 0 then some (.ok (.error Errno.unexpected.code.toUInt32))
    else some (.ok (.error m.header.ipchdrParam.toUInt32))
  else some (.error .unexpected)

structure RequestEnv where
  port : UInt32
  cookie : UInt64
  page : ℕ → UInt8

def RequestEnv.header (env : RequestEnv) (dst : UInt32) (msg : UInt16) : IpcHeader :=
  ⟨env.port, dst, ipcPortRightSendOnceBit, msg, env.cookie, 0⟩

/-! ## The service of a file -/

/-- An open file of an archive, and the port of its service. -/
structure FileService where
  mount : TarfsMount
  context : TarfsFileContext
  port : UInt32

/-- `fs_file_ipc_read_handler` for a file of an archive: the message that it sends. What has been
read is in the page of the request, which goes back with the reply. -/
def fsFileReadReply (srv : FileService) (reqh : IpcHeader) (page : ℕ → UInt8) (offset : Int64)
    (length : UInt64) : Outcome (FileService × Option PageMessage) :=
  if length = 0 then pure (srv, none)
  else do
    let len := if fsReadMax < length then fsReadMax else length
    let (mount, r) ← tarfsOpFileRead srv.mount ⟨srv.context, offset, len⟩
    let srv := { srv with mount := mount }
    match r with
    | .error e => pure (srv, some ⟨ipcHeaderError reqh e, none⟩)
    | .ok bytes =>
      let ipch := { ipcHeaderReply reqh with ipchdrParam := UInt64.ofNat bytes.length }
      if bytes.length = 0 then pure (srv, some ⟨ipch, none⟩)
      else pure (srv, some ⟨ipch, some fun i => bytes[i]?.getD (page i)⟩)

/-- `fs_file_ipc_close_handler` for a file of an archive: `tarfs_op_file_close` returns if it does
not panic. -/
def fsFileCloseReply (reqh : IpcHeader) : PageMessage := ⟨ipcHeaderReply reqh, none⟩

/-! ## The functions -/

/-- `read`: the page and the length of the reply, or the number of an error. A request without a
reply is waited for forever. -/
def Libmu.read (srv : FileService) (env : RequestEnv) (off : Int64) (len : UInt64) :
    Outcome (FileService × Except UInt32 (Option (ℕ → UInt8) × UInt64)) := do
  let reqh := env.header srv.port fsMsgRead
  let (srv, m) ← fsFileReadReply srv reqh env.page off len
  match m.bind (ipcRequestReply reqh true) with
  | none => .error .spin
  | some (.error e) => pure (srv, .error e.code.toUInt32)
  | some (.ok (.error code)) => pure (srv, if code ≠ 0 then .error code else .ok (none, 0))
  | some (.ok (.reply param page)) => pure (srv, .ok (page, param))

def Libmu.close (srv : FileService) (env : RequestEnv) : Outcome (Except UInt32 Unit) := do
  let reqh := env.header srv.port fsMsgClose
  match ipcRequestReply reqh false (fsFileCloseReply reqh) with
  | none => .error .spin
  | some (.error e) => pure (.error e.code.toUInt32)
  | some (.ok (.error code)) => pure (if code ≠ 0 then .error code else .ok ())
  | some (.ok (.reply _ _)) => pure (.ok ())

/-! ## What they return -/

variable {reqh : IpcHeader} {srv : FileService} {env : RequestEnv} {image : DiskImage} {off : Int64}

theorem reply_msg (msg : UInt16) : (0x1000 ||| msg &&& 0x0fff) &&& 0x0fff = msg &&& 0x0fff ∧
    (0x1000 ||| msg &&& 0x0fff) &&& 0xf000 = 0x1000 := by
  have hd (a : UInt16) :
      (0x1000 ||| msg &&& 0x0fff) &&& a = 0x1000 &&& a ||| msg &&& (0x0fff &&& a) := by
    rw [← UInt16.toBitVec_inj]
    simp only [UInt16.toBitVec_and, UInt16.toBitVec_or]
    rw [BitVec.and_or_distrib_right, BitVec.and_assoc]
  have hf : (0x1000 : UInt16) &&& 0x0fff = 0 ∧ (0x0fff : UInt16) &&& 0xf000 = 0 := by decide
  rw [hd, hd, hf.1, hf.2, UInt16.zero_or, UInt16.and_zero]
  exact ⟨rfl, rfl⟩

theorem ipcRequestReply_reply {data : Bool} {param : UInt64} {page : Option (ℕ → UInt8)} :
    ipcRequestReply reqh data ⟨{ ipcHeaderReply reqh with ipchdrParam := param }, page⟩ =
      some (.ok (.reply param (if data then page else none))) := by
  obtain ⟨hm, hf⟩ := reply_msg reqh.ipchdrMsg
  simp [ipcRequestReply, ipcHeaderReply, hm, hf]

theorem Libmu.close_ok : Libmu.close srv env = .ok (.ok ()) := by
  have hr : ipcRequestReply (env.header srv.port fsMsgClose) false
      (fsFileCloseReply (env.header srv.port fsMsgClose)) = some (.ok (.reply 0 none)) :=
    ipcRequestReply_reply
  rw [close, hr]
  rfl

/-- What a read request for a page returns of a file: the bytes up to the end of the block. -/
def filePiece (bytes : List UInt8) (o : ℕ) : List UInt8 := (bytes.drop o).take (512 - o % 512)

theorem tarfsOpFileRead_piece {tm : TarfsMount} {fc : TarfsFileContext}
    (hs : tm.tmSdev.Serves image) (hon : fc.On image) (ho : off.toUInt64 ≤ fc.fDsize) :
    Ensures (tarfsOpFileRead tm ⟨fc, off, 8192⟩) fun r =>
      r.2 = .ok (filePiece (fc.bytes image) off.toUInt64.toNat) ∧ r.1.tmSdev = tm.tmSdev := by
  have hb := hon.length_bytes
  refine (tarfsOpFileRead_spec.and tarfsOpFileRead_sdev).mono ?_
  rintro r ⟨hr, hsd⟩
  refine ⟨hr.trans ?_, hsd⟩
  by_cases hend : off.toUInt64 = fc.fDsize
  · rw [TarfsRead.result, if_neg (UInt64.not_lt.mpr ho), if_pos hend, filePiece,
      drop_of_length_le (by rw [hb, hend]), take_nil]
  · have hin : TarfsRead.Inside ⟨fc, off, 8192⟩ := UInt64.lt_of_le_of_ne ho hend
    have hlt := UInt64.lt_iff_toNat_lt.mp hin
    have hc := hin.toNat_length
    have hlen : (8192 : UInt64).toNat = 8192 := rfl
    rw [TarfsRead.result_on hs hon hin, filePiece]
    refine congrArg Except.ok ?_
    dsimp only at hlt hc ⊢
    -- the end of the file cuts off what the block leaves
    rw [take_eq_take_iff, length_drop, hb]
    omega

theorem fsFileReadReply_ok {mount : TarfsMount} {bytes : List UInt8} {page : ℕ → UInt8}
    (h : tarfsOpFileRead srv.mount ⟨srv.context, off, 8192⟩ = .ok (mount, .ok bytes)) :
    fsFileReadReply srv reqh page off 8192 = .ok ({ srv with mount := mount }, some
      ⟨{ ipcHeaderReply reqh with ipchdrParam := UInt64.ofNat bytes.length },
        if bytes.length = 0 then none else some fun i => bytes[i]?.getD (page i)⟩) := by
  rw [fsFileReadReply, if_neg (by decide), if_neg (show ¬ fsReadMax < 8192 by decide)]
  dsimp only
  rw [h, ok_bind]
  dsimp only
  split_ifs <;> rfl

theorem Libmu.read_eq {srv' : FileService} {len param : UInt64} {page : Option (ℕ → UInt8)}
    (h : fsFileReadReply srv (env.header srv.port fsMsgRead) env.page off len = .ok (srv', some
      ⟨{ ipcHeaderReply (env.header srv.port fsMsgRead) with ipchdrParam := param }, page⟩)) :
    Libmu.read srv env off len = .ok (srv', .ok (page, param)) := by
  rw [read, h, ok_bind]
  dsimp only
  rw [Option.bind_some, ipcRequestReply_reply]
  rfl

variable (env) in
theorem Libmu.read_on (hs : srv.mount.tmSdev.Serves image) (hon : srv.context.On image)
    (ho : off.toUInt64 ≤ srv.context.fDsize) {piece : List UInt8}
    (hp : filePiece (srv.context.bytes image) off.toUInt64.toNat = piece) :
    ∃ mount page, Libmu.read srv env off 8192 =
        .ok ({ srv with mount := mount }, .ok (page, UInt64.ofNat piece.length)) ∧
      mount.tmSdev = srv.mount.tmSdev ∧
      (piece ≠ [] → ∃ buf, page = some buf ∧ ∀ i < piece.length, piece[i]? = some (buf i)) := by
  obtain ⟨⟨mount, r⟩, hrd, hr, hsd⟩ := tarfsOpFileRead_piece hs hon ho
  rw [hp] at hr
  subst hr
  refine ⟨mount, _, read_eq (fsFileReadReply_ok hrd), hsd, fun hne => ?_⟩
  have hlen : piece.length ≠ 0 := fun h => hne (eq_nil_of_length_eq_zero h)
  refine ⟨fun i => piece[i]?.getD (env.page i), if_neg hlen, fun i hi => ?_⟩
  dsimp only
  rw [getElem?_eq_getElem hi, Option.getD_some]

end Glatt
