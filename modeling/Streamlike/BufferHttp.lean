import Streamlike.BufferOver
import Streamlike.HttpServed

/-!
# Buffered reading over HTTP

The three together: the filler thread reads the HTTP stream, the HTTP
stream asks the test server, and the user reads the buffered stream. The
user's stream is the content of the server (`buffered_http`), whatever
the interleaving of the two threads, the cutting of the responses and the
pausing of the transfers, as long as libcurl reports no error and the user
seeks to offsets before the end of the content. A seek to the end is
answered with 416, and a second one behind it leaves the next read empty.
-/

namespace Streamlike

variable {c step : Nat}

/-- What is open in a call of the HTTP stream: the memory that is handed to
it, libcurl's side of the transfer, and the response to a seek. -/
structure HttpChoice where
  buffer : ByteMem UInt8
  cont : Nat
  polls : List Poll
  next : List CurlEvent

/-- The HTTP stream as an inner stream. -/
def httpInner (server : TestServer) (first : List CurlEvent) : InnerStream UInt8 where
  State := SlHttp
  Choice := HttpChoice
  init http := ∃ mem, http = slHttpOpen mem first
  read http e len :=
    (slHttpReadCb http e.buffer len e.cont e.polls).map fun (n, http) =>
      (http.outbuf.read 0 n, http)
  seek http e offset whence := slHttpSeekCb http offset whence e.cont e.polls e.next
  tell := slHttpTellCb
  readOk _ e _ := ∀ poll ∈ e.polls, poll.Ok
  seekOk http e offset := (∀ poll ∈ e.polls, poll.Ok)
    ∧ ∀ http', slHttpSeekCb http offset slSeekSet e.cont e.polls e.next = some (0, http') →
      Answered server http'.curl.range e.next

/-- The HTTP stream at a position in the server's content, ready for a
seek. -/
def ServedAt (server : TestServer) (http : SlHttp) (pos : Nat) : Prop :=
  http.Cancels ∧ ∃ trace p, Serving server ⟨http, trace⟩ p ∧ p.pos = pos

theorem httpInner_gives {server : TestServer} (hlen : server.contentLen < 2 ^ 63)
    {first : List CurlEvent} (hfirst : Answered server none first) :
    (httpInner server first).Gives server.bytes (fun offset => offset < server.contentLen)
      (fun offset => 0 ≤ offset) (ServedAt server) where
  init := by
    rintro _ ⟨mem, rfl⟩
    exact ⟨.inl rfl, _, _, .start hlen hfirst mem, rfl⟩
  tell := by
    rintro http _ ⟨-, trace, p, hserving, rfl⟩
    exact hserving.pos
  read := by
    rintro http _ e len bytes http' ⟨hcancels, trace, p, hserving, rfl⟩ hok hcall
    obtain ⟨⟨n, http'⟩, hread, heq⟩ := Option.map_eq_some_iff.mp hcall
    obtain ⟨rfl, rfl⟩ := Prod.mk.inj heq
    obtain ⟨base, got, hfed, -⟩ := hserving.fed
    obtain ⟨hn, hbytes, hserving'⟩ := hserving.gives hlen hok hread
    refine ⟨?_, read_cancels hserving.idle hok hfed.state hcancels hread, _, _, hserving', ?_⟩
    · rw [hbytes, hn, bytesAt_min]
    · rw [ByteMem.length_read]
  seek := by
    rintro http _ e offset code http' ⟨hcancels, trace, p, hserving, rfl⟩ hin
      ⟨hpolls, hanswer⟩ hseek
    have hok : SeekServed server http offset slSeekSet e.cont e.polls e.next :=
      ⟨hpolls, .inr rfl, by omega, hcancels, hanswer⟩
    have hcancels' := hserving.seek_cancels hlen hok hin hseek
    rcases hserving.seeks hlen hok hseek with ⟨hneg, rfl, rfl⟩ | ⟨hoff, rfl, -, hserving'⟩
    · exact .inr ⟨nofun, Int.not_le.mpr hneg, hcancels', trace, p, hserving, rfl⟩
    · exact .inl ⟨rfl, hoff, hcancels', _, _, hserving', rfl⟩

/-- **Buffered reading over HTTP gives the server's content.** In the runs
of the two threads over the HTTP stream and the test server in which every
`curl_multi_wait` and `curl_multi_perform` succeeds and the user seeks with
`SL_SEEK_SET` to offsets below the length of the content only: what the
user's calls return is the content, read and sought, and between calls the
transfer is ahead of the user by no more than the size of the buffer.
Where besides no such offset is negative and writing is not closed between
the two loads of `circbuf_read`, each read returns all that it is asked for
or all that remain, and each seek succeeds. -/
theorem buffered_http (server : TestServer) (hlen : server.contentLen < 2 ^ 63)
    {first : List CurlEvent} (hfirst : Answered server none first) (c step : Nat)
    (y : Over (httpInner server first)) :
    ((bufferedOver (httpInner server first) c step).Reach
        (OverOk fun offset => offset < server.contentLen) y →
      (∃ p, (content server.bytes).Reach Lts.Any p
          ∧ p.trace = y.x.s.trace.map Event.content)
        ∧ (y.x.u = .idle →
          y.x.s.pos ≤ slHttpTellCb y.inner ∧ slHttpTellCb y.inner ≤ y.x.s.pos + c))
      ∧ ((bufferedOver (httpInner server first) c step).Reach
          (OverExact fun offset => 0 ≤ offset ∧ offset < server.contentLen) y →
        ∃ p, (content server.bytes).Reach (Exact server.bytes) p
          ∧ p.trace = y.x.s.trace.map Event.content) := by
  have hgives := httpInner_gives hlen hfirst
  exact ⟨over_content hgives,
    over_content_exact (hgives.mono fun _ => And.right) fun _ => And.left⟩

/-- One byte, a seek to the last, which the filler serves, and that byte. -/
theorem buffered_http_run :
    ∃ p : Position UInt8, (content [1, 2, 3]).Reach (Exact [1, 2, 3]) p
      ∧ p.trace = [.read 1 [1] 1, .seek 2 0 2, .read 1 [3] 3] := by
  let I := httpInner countServer countWhole
  let M := bufferedOver I 1 1
  let P : Int → Prop := fun offset => 0 ≤ offset ∧ offset < countServer.contentLen
  let e : I.Choice := ⟨fun _ => 0, 1, countPolls, countPart⟩
  let y₀ : Over I :=
    ⟨⟨.fresh ⟨fun _ => (0, 0), 2, 0, 0, false, false⟩ 1, .startLock, .idle⟩, countStart, none⟩
  let fetch (n : Nat) : List (OAct I) := List.replicate n (.base (.filler .go))
    ++ [.readCall e, .readStore, .readRet] ++ List.replicate 5 (.base (.filler .go))
  let fills : List (OAct I) := List.replicate 7 (.base (.filler .go))
  let reads : List (OAct I) := .base (.user (.call (.read (fun _ => (0, 0)) 1)))
    :: List.replicate 17 (.base (.user .go))
  let seeks : List (OAct I) := .base (.user (.call (.seek 2 slSeekSet)))
    :: List.replicate 14 (.base (.user .go))
  let ends : List (OAct I) := List.replicate 6 (.base (.user .go))
  have hrun : ((M.run (fetch 15) y₀).bind fun y₁ => (M.run (reads ++ seeks) y₁).bind fun y₂ =>
      if y₂.x.u.args = some (2, slSeekSet) then
        (M.run fills y₂).bind fun y₃ => if y₃.x.u.args = some (2, slSeekSet) then
          (M.step (.fillerSeek e) y₃).bind fun y₄ => if y₄.x.u.args = some (2, slSeekSet) then
            (M.run (fetch 20) y₄).bind fun y₅ => (M.run (ends ++ reads) y₅).map fun y₆ =>
              y₆.x.s.trace.map Event.content
          else none
        else none
      else none) = some [.read 1 [1] 1, .seek 2 0 2, .read 1 [3] 3] := by
    decide +kernel
  obtain ⟨y₁, h₁, hrun⟩ := Option.bind_eq_some_iff.mp hrun
  obtain ⟨y₂, h₂, hrun⟩ := Option.bind_eq_some_iff.mp hrun
  obtain ⟨hargs₂, hrun⟩ := Option.ite_none_right_eq_some.mp hrun
  obtain ⟨y₃, h₃, hrun⟩ := Option.bind_eq_some_iff.mp hrun
  obtain ⟨hargs₃, hrun⟩ := Option.ite_none_right_eq_some.mp hrun
  obtain ⟨y₄, h₄, hrun⟩ := Option.bind_eq_some_iff.mp hrun
  obtain ⟨hargs₄, hrun⟩ := Option.ite_none_right_eq_some.mp hrun
  obtain ⟨y₅, h₅, hrun⟩ := Option.bind_eq_some_iff.mp hrun
  obtain ⟨y₆, h₆, htrace⟩ := Option.map_eq_some_iff.mp hrun
  have hquiet : ∀ {y : Over I}, y.x.u.args = some (2, slSeekSet) →
      ∀ tell₀ q, y.x.u ≠ .read tell₀ q := by
    intro y hargs tell₀ q hu
    rw [hu] at hargs
    cases hargs
  have huser : ∀ {acts : List (OAct I)} {y y' : Over I},
      (∀ a ∈ acts, a = .base (.user (.call (.read (fun _ => (0, 0)) 1)))
        ∨ a = .base (.user (.call (.seek 2 slSeekSet))) ∨ a = .base (.user .go)) →
      M.Reach (OverExact P) y → M.run acts y = some y' → M.Reach (OverExact P) y' := by
    intro acts y y' hacts hy h
    refine .run (fun a ha z => ?_) hy h
    have hopen : ∀ b, a = .base b → (∃ b', b = .user b') → ¬ z.x.ClosesBetween b := by
      rintro _ - ⟨b', rfl⟩ ⟨hb, -⟩
      cases hb
    rcases hacts a ha with rfl | rfl | rfl
    · exact ⟨trivial, fun b hb => hopen b hb ⟨_, (OAct.base.inj hb).symm⟩⟩
    · exact ⟨⟨rfl, by decide⟩, fun b hb => hopen b hb ⟨_, (OAct.base.inj hb).symm⟩⟩
    · exact ⟨trivial, fun b hb => hopen b hb ⟨_, (OAct.base.inj hb).symm⟩⟩
  have hstart : M.Reach (OverExact P) y₀ :=
    .init ⟨⟨.ample (0, 0), true, _, rfl, by decide, rfl⟩, ⟨_, rfl⟩, rfl⟩
  have hread : ∀ http len, I.readOk http e len := fun _ _ => countPolls_ok
  have hr₁ :=
    FillerActs.reach hread (by simp [fetch, FillerActs]) (fun _ _ h => by cases h) hstart h₁
  have hr₂ := huser (by simp [reads, seeks]) hr₁ h₂
  have hr₃ := FillerActs.reach hread (by simp [fills, FillerActs]) (hquiet hargs₂) hr₂ h₃
  have hseek : OverExact P y₃ (.fillerSeek e) := by
    refine ⟨fun off whence hf => ⟨countPolls_ok, fun http' h => ?_⟩, nofun⟩
    have hx := seekInv_of_reach
      (over_exact ((httpInner_gives (by decide) countWhole_answered).mono fun _ => And.right)
        (fun _ => And.left) hr₃)
    rw [hf] at hx
    obtain ⟨rfl, -⟩ := Prod.mk.inj (Option.some.inj (hx.args.symm.trans hargs₃))
    rw [seek_range h]
    exact countPart_answered
  have hr₄ := hr₃.step hseek h₄
  have hr₅ := FillerActs.reach hread (by simp [fetch, FillerActs]) (hquiet hargs₄) hr₄ h₅
  have hr₆ := huser (by simp [ends, reads]) hr₅ h₆
  obtain ⟨p, hp, hcontent⟩ :=
    (buffered_http countServer (by decide) countWhole_answered 1 1 y₆).2 hr₆
  exact ⟨p, hp, hcontent.trans htrace⟩

end Streamlike
