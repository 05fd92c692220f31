import DnsOverStreams.Settings.Transport
/-!
Settings that need the name of a server. Over TLS the name is looked at when the transport is built. Over QUIC a
socket is bound before anything else, and any text is then taken for a name.
-/

namespace DnsOverStreams

namespace ServerName

variable {text : String}

theorem parse_eq_ok_iff {name : ServerName} : parse text = .ok name ↔ ofText? text = some name := by
  unfold parse
  cases ofText? text <;> simp

theorem parse_eq_error_iff {cause : Failure} :
    parse text = .error cause ↔ ofText? text = none ∧
      cause = .report ("invalid TLS server name " ++ text ++ ": invalid dns name") := by
  unfold parse
  cases ofText? text <;> simp [eq_comm]

end ServerName

namespace Settings

variable {bind : SocketAddress → Except IoFailure Unit} {s : Settings}

def HasSocket (bind : SocketAddress → Except IoFailure Unit) (s : Settings) : Prop :=
  s.protocol = .quic → bind s.datagramSource = .ok ()

/-- The way that leads to the server of a name. Only over TLS does it say what the name is. -/
inductive Leads (s : Settings) (name : String) : Route → Prop where
  | tls {server : ServerName} (h : s.protocol = .tls) (hserver : ServerName.ofText? name = some server) :
      Leads s name (.tls s.bindAddress server)
  | quic (h : s.protocol = .quic) : Leads s name (.quic s.datagramSource name)

/-- What becomes of settings for which the name of a server is needed, and why. -/
inductive Builds (bind : SocketAddress → Except IoFailure Unit) (s : Settings) :
    Except BuildFailure Transport → Prop where
  | unbound {cause : IoFailure} (h : s.protocol = .quic) (hbind : bind s.datagramSource = .error cause) :
      Builds bind s (.error (.bind cause))
  | unnamed (hbind : s.HasSocket bind) (hname : s.serverName = none) :
      Builds bind s (.error (.missingServerName s.protocol))
  | misnamed {name : String} {cause : Failure} (h : s.protocol = .tls) (hname : s.serverName = some name)
      (hcause : ServerName.parse name = .error cause) : Builds bind s (.error (.transport cause))
  | built {name : String} {route : Route} (hbind : s.HasSocket bind) (hname : s.serverName = some name)
      (hroute : s.Leads name route) : Builds bind s (.ok ⟨s.endpoint, route⟩)

theorem build_tls (h : s.protocol = .tls) :
    s.build bind = s.requiredServerName >>= fun name =>
      (ServerName.parse name).mapError .transport >>= fun server =>
        .ok ⟨s.endpoint, .tls s.bindAddress server⟩ := by
  unfold build
  rw [h]
  rfl

theorem build_quic (h : s.protocol = .quic) :
    s.build bind = (bind s.datagramSource).mapError .bind >>= fun _ =>
      s.requiredServerName >>= fun name => .ok ⟨s.endpoint, .quic s.datagramSource name⟩ := by
  unfold build
  rw [h]
  rfl

theorem builds_tls (h : s.protocol = .tls) : s.Builds bind (s.build bind) := by
  have hbind : s.HasSocket bind := fun hq => by cases h.symm.trans hq
  rw [build_tls h]
  unfold requiredServerName
  cases hname : s.serverName with
  | none => exact .unnamed hbind hname
  | some name =>
      change Builds bind s ((ServerName.parse name).mapError .transport >>= _)
      cases hparse : ServerName.parse name with
      | error cause => exact .misnamed h hname hparse
      | ok server => exact .built hbind hname (.tls h (ServerName.parse_eq_ok_iff.mp hparse))

theorem builds_quic (h : s.protocol = .quic) : s.Builds bind (s.build bind) := by
  rw [build_quic h]
  cases hbind : bind s.datagramSource with
  | error cause => exact .unbound h hbind
  | ok u =>
      unfold requiredServerName
      cases hname : s.serverName with
      | none => exact .unnamed (fun _ => hbind) hname
      | some name => exact .built (fun _ => hbind) hname (.quic h)

theorem build_unnamed (h : s.protocol ≠ .tcp) (hbind : s.HasSocket bind) (hname : s.serverName = none) :
    s.build bind = .error (.missingServerName s.protocol) := by
  have hrequired : s.requiredServerName = .error (.missingServerName s.protocol) := by
    unfold requiredServerName
    rw [hname]
  cases hp : s.protocol with
  | tcp => exact absurd hp h
  | tls => rw [build_tls hp, hrequired, hp]; rfl
  | quic => rw [build_quic hp, hbind hp, hrequired, hp]; rfl

theorem build_of_builds {r : Except BuildFailure Transport} (h : s.protocol ≠ .tcp)
    (hr : s.Builds bind r) : s.build bind = r := by
  have hrequired {name : String} (hname : s.serverName = some name) : s.requiredServerName = .ok name := by
    unfold requiredServerName
    rw [hname]
  cases hr with
  | unbound hp hbind => rw [build_quic hp, hbind]; rfl
  | unnamed hbind hname => exact build_unnamed h hbind hname
  | misnamed hp hname hcause =>
      rw [build_tls hp, hrequired hname]
      change (ServerName.parse _).mapError _ >>= _ = _
      rw [hcause]
      rfl
  | built hbind hname hroute =>
      cases hroute with
      | tls hp hserver =>
          rw [build_tls hp, hrequired hname]
          change (ServerName.parse _).mapError _ >>= _ = _
          rw [ServerName.parse_eq_ok_iff.mpr hserver]
          rfl
      | quic hp => rw [build_quic hp, hbind hp, hrequired hname]; rfl

/-- Of settings for which the name of a server is needed, what is built or fails to be. A missing name is told
before any other fault but that of the socket, and the syntax of a name is a matter of TLS alone. -/
theorem names_looked_at_over_tls {r : Except BuildFailure Transport} (h : s.protocol ≠ .tcp) :
    s.build bind = r ↔ s.Builds bind r := by
  constructor
  · rintro rfl
    cases hp : s.protocol with
    | tcp => exact absurd hp h
    | tls => exact builds_tls hp
    | quic => exact builds_quic hp
  · exact build_of_builds h

theorem names_looked_at_over_tls_misnamed :
    let s : Settings := ⟨.tls, .v4 ⟨127, 0, 0, 1⟩ 853, some "not a name", none⟩
    s.protocol ≠ .tcp ∧ s.build (fun _ => .error .brokenPipe) = .error (.transport
      (.report "invalid TLS server name not a name: invalid dns name")) := by
  intro s
  have hs : s.protocol ≠ .tcp := by decide
  exact ⟨hs, (names_looked_at_over_tls hs).mpr
    (.misnamed rfl rfl (ServerName.parse_eq_error_iff.mpr ⟨by decide, rfl⟩))⟩

/-- Over QUIC a transport is built to a server of no possible name, and without a name the socket is what is
missed. -/
theorem unverifiable_over_quic :
    let s : Settings := ⟨.quic, .v4 ⟨127, 0, 0, 1⟩ 853, some "not a name", none⟩
    let unnamed : Settings := { s with serverName := none }
    ServerName.ofText? "not a name" = none ∧
      s.build (fun _ => .ok ()) =
        .ok ⟨s.endpoint, .quic (.v4 Ipv4.unspecified 0) "not a name"⟩ ∧
      unnamed.build (fun _ => .error ⟨.addrNotAvailable, ""⟩) =
        .error (.bind ⟨.addrNotAvailable, ""⟩) :=
  ⟨by decide, rfl, rfl⟩

end Settings

end DnsOverStreams
