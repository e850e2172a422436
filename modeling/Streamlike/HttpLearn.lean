import Streamlike.HttpOrder
import Streamlike.HttpResource

/-!
# What the stream has learnt

Length and range support are learnt from the header lines of any response
of the stream's life, and each is learnt once: what a later response says
about them is not listened to (`learnt_once`).

`Learnt` is the part of the context that the callback learns into, with the
offset and the status that it learns by. `Hears` is what one event does to
it and to the events that are still to come; reads and cancellations are
runs of that (`slHttpReadCb_hears`, `slCancelTransfer_hears`), whatever
libcurl reports in them.
-/

namespace Streamlike

open CString

/-! ## One event -/

structure Learnt where
  off : Int
  len : Int
  status : Int
  range : RangeAllowed
deriving Repr, DecidableEq

def SlHttp.learnt (http : SlHttp) : Learnt :=
  ⟨http.httpOff, http.httpLen, http.httpStatus, http.httpRangeAllowed⟩

/-- The header callback on what it learns. -/
def Learnt.hear (l : Learnt) (line : Bytes) : Learnt :=
  match statusOf line with
  | some status => { l with status }
  | none =>
      { l with
        len :=
          if l.len < 0 then
            ((textOf l.status line).map fun text => toOffT (strtoull text)).getD l.len
          else l.len
        range :=
          if l.range = .unknown then (decisionOf l.off l.status line).getD l.range else l.range }

theorem headerCb_learnt (http : SlHttp) (line : Bytes) :
    (slHttpHeaderCb_ http line).2.learnt = http.learnt.hear line := by
  unfold Learnt.hear
  cases hstatus : statusOf line with
  | some status => rw [headerCb_eq, hstatus]; rfl
  | none => rw [headerCb_field hstatus]; rfl

/-- What is learnt, and what the transfer has still to deliver. -/
def SlHttp.hearing (http : SlHttp) : Learnt × List CurlEvent := (http.learnt, http.curl.events)

/-- What an event does to it: a line is learnt from, bytes advance the
offset, and the transfer may be cut off at a chunk. -/
inductive Hears : Learnt × List CurlEvent → Learnt × List CurlEvent → Prop
  | header (l : Learnt) (line : Bytes) (events : List CurlEvent) :
      Hears (l, .header line :: events)
        (l.hear line, if unsatisfiable line then [] else events)
  | taken (l : Learnt) (b : Bytes) (events : List CurlEvent) (n : Nat) :
      Hears (l, .chunk b :: events) ({ l with off := offAdd l.off n }, events)
  | part (l : Learnt) (b : Bytes) (events : List CurlEvent) (n : Nat) :
      Hears (l, .chunk b :: events) ({ l with off := offAdd l.off n }, .chunk b :: events)
  | cut (l : Learnt) (b : Bytes) (events : List CurlEvent) : Hears (l, .chunk b :: events) (l, [])

/-- What a number of events does. -/
def Heard : Learnt × List CurlEvent → Learnt × List CurlEvent → Prop := Relation.ReflTransGen Hears

theorem deliverOne_hears (http : SlHttp) : Heard http.hearing (deliverOne http).hearing := by
  cases hp : http.curl.paused with
  | true =>
      rw [deliverOne, if_pos hp]
      exact .refl
  | false =>
      cases he : http.curl.events with
      | nil =>
          rw [deliverOne, if_neg (by rw [hp]; exact Bool.false_ne_true), he]
          exact .refl
      | cons e events =>
          have hstep : http.hearing = (http.learnt, e :: events) := by rw [SlHttp.hearing, he]
          rw [hstep]
          cases e with
          | header line =>
              rw [deliverOne_header hp he, SlHttp.hearing]
              show Heard _ ((slHttpHeaderCb_ http line).2.learnt, _)
              rw [headerCb_learnt]
              exact .single (.header _ line events)
          | chunk b =>
              generalize hnext : deliverOne http = http'
              have hd := hnext ▸ deliverOne_cases http
              cases hd with
              | none h =>
                  rcases h with h | h
                  · rw [hp] at h; cases h
                  · rw [he] at h; cases h
              | header _ _ _ _ he' => rw [he] at he'; cases he'
              | abort _ he' =>
                  rw [he] at he'
                  obtain ⟨heq, rfl⟩ := List.cons.inj he'
                  exact .single (.cut _ b events)
              | take _ he' =>
                  rw [he] at he'
                  obtain ⟨heq, rfl⟩ := List.cons.inj he'
                  exact .single (.taken _ b events _)
              | fill _ he' =>
                  refine .single ?_
                  rw [SlHttp.hearing, he]
                  exact .part _ b events _

theorem deliver_hears (n : Nat) (http : SlHttp) : Heard http.hearing (deliver n http).hearing := by
  induction n generalizing http with
  | zero => exact .refl
  | succ n ih => exact (deliverOne_hears http).trans (ih _)

/-! ## One call -/

theorem easyPauseCont_hears (n : Nat) (http : SlHttp) :
    Heard http.hearing (easyPauseCont n http).hearing := by
  unfold easyPauseCont
  split
  · exact deliver_hears n (http.setPaused false)
  · exact .refl

theorem readLoop_hears {polls : List Poll} {http http' : SlHttp} {n : Nat}
    (h : readLoop polls http = some (n, http')) : Heard http.hearing http'.hearing := by
  induction polls generalizing http with
  | nil =>
      by_cases hlt : http.outbufOff < http.outbufSize
      · rw [readLoop, if_pos hlt] at h
        cases h
      · rw [readLoop_full (not_lt.mp hlt)] at h
        obtain ⟨-, rfl⟩ := Prod.mk.inj (Option.some.inj h)
        exact .refl
  | cons poll polls ih =>
      by_cases hlt : http.outbufOff < http.outbufSize
      · have hdel := deliver_hears poll.events http
        rw [readLoop_round hlt] at h
        dsimp only at h
        split_ifs at h with hwait hnil hperform hready
        · obtain ⟨-, rfl⟩ := Prod.mk.inj (Option.some.inj h)
          exact .refl
        · obtain ⟨-, rfl⟩ := Prod.mk.inj (Option.some.inj h)
          exact hdel
        · obtain ⟨-, rfl⟩ := Prod.mk.inj (Option.some.inj h)
          exact hdel
        · have hrest := ih h
          exact hdel.trans hrest
        · exact hdel.trans (ih h)
      · rw [readLoop_full (not_lt.mp hlt)] at h
        obtain ⟨-, rfl⟩ := Prod.mk.inj (Option.some.inj h)
        exact .refl

theorem slHttpReadCb_hears {http http' : SlHttp} {buffer : ByteMem UInt8} {len cont n : Nat}
    {polls : List Poll} (h : slHttpReadCb http buffer len cont polls = some (n, http')) :
    Heard http.hearing http'.hearing := by
  unfold slHttpReadCb at h
  dsimp only at h
  have hloop := readLoop_hears h
  split at hloop
  · have hpause := easyPauseCont_hears cont
      { http with outbuf := buffer, outbufOff := 0, outbufSize := len }
    exact hpause.trans hloop
  · exact hloop

theorem cancelLoop_hears {polls : List Poll} {http http' : SlHttp}
    (h : cancelLoop polls http = some http') : Heard http.hearing http'.hearing := by
  induction polls generalizing http with
  | nil => cases h
  | cons poll polls ih =>
      have hdel := deliver_hears poll.events http
      rw [cancelLoop] at h
      split at h
      next _ count hperform =>
        obtain ⟨rfl, -⟩ := Prod.mk.inj hperform
        split at h
        · exact hdel.trans (ih h)
        · exact Option.some.inj h ▸ hdel

theorem cancelWait_hears {polls : List Poll} {http http' : SlHttp}
    (h : (if http.state ≠ .aborted then cancelLoop polls http else some http) = some http') :
    Heard http.hearing http'.hearing := by
  split at h
  · exact cancelLoop_hears h
  · exact Option.some.inj h ▸ .refl

theorem slCancelTransfer_hears {http http' : SlHttp} {cont : Nat} {polls : List Poll}
    (h : slCancelTransfer_ http cont polls = some http') :
    Heard http.hearing http'.hearing := by
  unfold slCancelTransfer_ at h
  split at h
  · obtain rfl := Option.some.inj h
    exact .refl
  · obtain ⟨http₁, h₁, rfl⟩ := Option.map_eq_some_iff.mp h
    have hwait := cancelWait_hears h₁
    split at hwait
    · have hpause := easyPauseCont_hears cont { http with state := .abortRequested }
      exact hpause.trans hwait
    · exact hwait

/-! ## Runs -/

/-- Both are kept once they are known. -/
def Learnt.Keeps (l l' : Learnt) : Prop :=
  (0 ≤ l.len → l'.len = l.len) ∧ (l.range ≠ .unknown → l'.range = l.range)

theorem Learnt.Keeps.refl (l : Learnt) : l.Keeps l := ⟨fun _ => rfl, fun _ => rfl⟩

theorem Learnt.Keeps.trans {l l' l'' : Learnt} (h : l.Keeps l') (h' : l'.Keeps l'') :
    l.Keeps l'' := by
  constructor
  · intro hknown
    have heq := h.1 hknown
    exact (h'.1 (heq ▸ hknown)).trans heq
  · intro hknown
    have heq := h.2 hknown
    exact (h'.2 (heq ▸ hknown)).trans heq

theorem Learnt.keeps_hear (l : Learnt) (line : Bytes) : l.Keeps (l.hear line) := by
  unfold hear
  split
  · exact .refl l
  · constructor
    · intro hlen
      dsimp only
      rw [if_neg (Int.not_lt.mpr hlen)]
    · intro hrange
      dsimp only
      rw [if_neg hrange]

theorem Heard.keeps {x y : Learnt × List CurlEvent} (h : Heard x y) : x.1.Keeps y.1 := by
  induction h with
  | refl => exact .refl _
  | tail _ hone ih =>
      refine ih.trans ?_
      cases hone with
      | header l line events => exact l.keeps_hear line
      | taken | part | cut => exact ⟨fun _ => rfl, fun _ => rfl⟩

/-- **What is known stays known.** Along every run of reads and seeks,
whatever the servers answer and libcurl reports: a length that is known is
never changed again, and neither is what is known about ranges, in either
direction. So once a stream has a length its end of file is decided by the
offset alone, and a stream that is seekable remains so. -/
theorem learnt_once {first : List CurlEvent} {x y : HttpSys}
    (h : (httpStream first).Steps Lts.Any x y) :
    (0 ≤ slHttpLengthCb x.http → slHttpLengthCb y.http = slHttpLengthCb x.http
        ∧ (slHttpEofCb y.http ↔ slHttpLengthCb x.http ≤ slHttpTellCb y.http))
      ∧ (x.http.httpRangeAllowed ≠ .unknown →
        slHttpSeekableCb y.http = slHttpSeekableCb x.http) := by
  have hkeeps : x.http.learnt.Keeps y.http.learnt := by
    induction h with
    | refl => exact .refl _
    | @tail y z a _ _ hs ih =>
        refine ih.trans ?_
        cases a with
        | read buffer len cont polls =>
            obtain ⟨⟨n, http'⟩, hread, rfl⟩ := Option.map_eq_some_iff.mp hs
            exact (slHttpReadCb_hears hread).keeps
        | seek offset whence cont polls next =>
            obtain ⟨⟨code, http'⟩, hseek, rfl⟩ := Option.map_eq_some_iff.mp hs
            rcases slHttpSeekCb_cases hseek with ⟨-, -, -, rfl⟩ | ⟨-, -, http₁, hcancel, rfl⟩
            · exact .refl _
            · exact (slCancelTransfer_hears hcancel).keeps
  constructor
  · intro hknown
    have hlen : y.http.httpLen = x.http.httpLen := hkeeps.1 hknown
    have hknown : 0 ≤ x.http.httpLen := hknown
    refine ⟨hlen, ?_⟩
    simp [slHttpEofCb, slHttpLengthCb, slHttpTellCb, hlen, hknown]
  · intro hknown
    have hrange : y.http.httpRangeAllowed = x.http.httpRangeAllowed := hkeeps.2 hknown
    rw [slHttpSeekableCb, slHttpSeekableCb, hrange]

/-- A length of 2, and a seek that is answered with another length. -/
theorem learnt_once_run :
    ∃ x y : HttpSys, slHttpLengthCb x.http = 2
      ∧ y.trace = [.read 1 [7] 1, .seek 0 slSeekSet 0 0, .read 1 [8] 1]
      ∧ slHttpLengthCb y.http = 2 := by
  let one : Poll := ⟨true, 3, true⟩
  let answer (digit b : UInt8) : List CurlEvent :=
    [.header (statusLine [50, 48, 48]), .header (cntLen ++ [58, 32, digit, 13, 10]), .chunk [b, b]]
  let start : SlHttp :=
    slHttpOpen ⟨0, 0, 0, .unknown, ⟨none, [], false, []⟩, 0, 0, 0, fun _ => 0, .ready⟩ (answer 50 7)
  let read : HttpCall := .read (fun _ => 0) 1 1 [one]
  let seek : HttpCall := .seek 0 slSeekSet 1 [one] (answer 57 8)
  let M := httpStream (answer 50 7)
  have hrun : ((M.step read ⟨start, []⟩).bind fun x => (M.step seek x).bind fun y =>
        (M.step read y).map fun z => (slHttpLengthCb x.http, z.trace))
      = some (2, [.read 1 [7] 1, .seek 0 slSeekSet 0 0, .read 1 [8] 1]) := by decide +kernel
  obtain ⟨x, hx, h⟩ := Option.bind_eq_some_iff.mp hrun
  obtain ⟨y, hy, h⟩ := Option.bind_eq_some_iff.mp h
  obtain ⟨z, hz, h⟩ := Option.map_eq_some_iff.mp h
  obtain ⟨hlen, htrace⟩ := Prod.mk.inj h
  have hsteps : M.Steps Lts.Any x z := .tail (.tail .refl trivial hy) trivial hz
  refine ⟨x, z, hlen, htrace, ?_⟩
  rw [((learnt_once hsteps).1 (by rw [hlen]; decide)).1, hlen]

end Streamlike
