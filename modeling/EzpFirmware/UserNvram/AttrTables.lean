import EzpFirmware.UserNvram.Rules

/-! # The tables of attributes

Every rule set has a table that names its attributes in their order, and says
how each of them is shown. A scan of a table goes on to an entry without a name;
some of the tables have none.
-/
namespace EzpFirmware.UserNvram
open Lib

/-- The bytes of a literal. -/
def literal (s : String) : CStr := CStr.read s.toByteArray.data.toList

/-- The functions that show an attribute as it is stored. -/
inductive Show where
  | showValue
  | showB64Value
  deriving DecidableEq

/-- `struct attr`, without the function for the web pages. -/
structure Attr where
  name : CStr
  funcOrig : Show
  deriving DecidableEq

/-- A table in memory. An entry can have no name. -/
abbrev AttrTable := List (Option Attr)

def values (names : List String) : List Attr := names.map fun name => ⟨literal name, .showValue⟩

def b64Values (names : List String) : List Attr :=
  names.map fun name => ⟨literal name, .showB64Value⟩

/-- A table with an entry without a name at its end. -/
def ended (attrs : List Attr) : AttrTable := attrs.map some ++ [none]

/-- A table without such an entry. -/
def unended (attrs : List Attr) : AttrTable := attrs.map some

/-- An element of `rules`. -/
structure RuleTable where
  name : CStr
  attr : AttrTable

/-- The names up to the first entry without one. -/
def AttrTable.names (table : AttrTable) : List CStr :=
  (table.takeWhile Option.isSome).reduceOption.map Attr.name

@[simp] theorem AttrTable.names_nil : AttrTable.names [] = [] := rfl

@[simp] theorem AttrTable.names_none (table : AttrTable) : AttrTable.names (none :: table) = [] := rfl

@[simp] theorem AttrTable.names_some (attr : Attr) (table : AttrTable) :
    AttrTable.names (some attr :: table) = attr.name :: table.names := rfl

theorem AttrTable.names_length_le (table : AttrTable) : table.names.length ≤ table.length := by
  induction table with
  | nil => rfl
  | cons entry table ih =>
    cases entry with
    | none => simp
    | some attr => simpa using ih

/-- An element of `rules` with these names only. -/
def RuleTable.toRule (v : RuleTable) : Rule :=
  ⟨v.name, v.attr.names⟩

def rule (name : String) (attr : AttrTable) : RuleTable := ⟨literal name, attr⟩

/-! ## The tables -/

def macSenseAttr : AttrTable := ended (values ["proto", "server_ip", "server_port", "server_time",
  "server_timeout", "wds_enable", "remote_ip"])

def plugRuleAttr : AttrTable := ended (values ["ethernet", "wisp", "usb"])

def cnntRuleAttr : AttrTable := ended (values ["expand", "name", "enable", "connection", "proto"])

def frRuleAttr : AttrTable := ended (values ["name", "enable", "extif", "proto", "extport_start",
  "extport_end", "ipaddr", "inport_start", "inport_end"])

def wizardRuleAttr : AttrTable := ended (values ["set_wizard", "admin", "mode", "wan_trad",
  "wan_wwan", "bw", "time", "wifi"])

def vsRuleAttr : AttrTable := ended (values ["name", "enable", "extif", "index", "wan_ipaddr",
  "mapped_ipaddr"])

def wanMainRuleAttr : AttrTable := ended (values ["name", "enable", "mtu", "stp", "maxcount"])

def wanDetectRuleAttr : AttrTable := ended (values ["enable", "threshold", "timeout", "type",
  "host_type", "host"])

def wanLbRuleAttr : AttrTable := ended (values ["type", "weight", "target", "backup", "failback"])

def wanStatusRuleAttr : AttrTable := ended (values ["state", "trycount", "action", "uptime"])

def wanActionStyleRuleAttr : AttrTable := ended (values ["upfb", "downfb"])

def storageDeviceMountRuleAttr : AttrTable := ended (values ["uport", "mnt", "smb_create_mask",
  "smb_dir_mask", "smb_guest_ok", "smb_read_only"])

def countdownRuleAttr : AttrTable := ended (values ["w_enable", "w_countdown", "w_count",
  "p_enable", "p_countdown", "p_count"])

def licenseStatusRuleAttr : AttrTable := ended (values ["state", "trycount"])

def wanUpnpStatusRuleAttr : AttrTable := ended (values ["state", "action", "proto"])

def wanBwRuleAttr : AttrTable := ended (values ["type", "dl", "ul", "expert_dl", "expert_ul",
  "link_percent", "global_percent", "user_percent", "dbm_upmax", "dbm_upmin", "dbm_downmax",
  "dbm_downmin"])

def wanStaticRuleAttr : AttrTable := ended (values ["ipaddr", "mask", "gateway", "dns1", "dns2",
  "wins"])

def wanDhcpRuleAttr : AttrTable := ended (values ["hostname", "domain", "lease"])

def wanPppoeRuleAttr : AttrTable := ended (values ["auth"] ++ b64Values ["username", "passwd"] ++
  values ["demand", "idletime", "echo_failure", "redialperiod", "mru", "mtu"])

def wanBigpondRuleAttr : AttrTable := ended (values ["enable", "server", "username", "passwd"])

def wanWwanRuleAttr : AttrTable := ended (values ["apn_type", "location", "isp", "apn", "pin",
  "mode", "auth", "username", "passwd", "demand", "idletime", "echo_failure", "redialperiod", "mru",
  "mtu", "dialstr", "brand", "model", "ttynum", "datatty", "ctrltty", "devname", "flag",
  "turbolink"])

def wanBarryRuleAttr : AttrTable := ended (values ["barrypasswd", "apn_type", "location", "isp",
  "apn", "username", "password", "dialstr", "turbolink"])

def wanHtcRuleAttr : AttrTable := ended (values ["hostname", "domain", "lease", "mtu", "turbolink"])

def wanBeceemRuleAttr : AttrTable := ended (values ["isp", "username", "password"])

def wanWimaxRuleAttr : AttrTable := ended (values ["mtu", "turbolink"])

def wanIphoneRuleAttr : AttrTable := ended (values ["hostname", "domain", "lease", "mtu",
  "turbolink"])

def wanWwanProbeRuleAttr : AttrTable := ended (values ["brand", "model", "signal", "ttynum",
  "datatty", "ctrltty", "devname", "flag", "sig", "imei", "provider", "firmware", "apn", "vendor",
  "product", "stayfg"])

def wanHwaddrRuleDefaultAttr : AttrTable := ended (values ["hwaddr"])

def wanHwaddrCloneRuleAttr : AttrTable := ended (values ["enable", "hwaddr"])

def wanDdnsRuleAttr : AttrTable := ended (values ["name", "enable", "type", "username", "passwd",
  "hostname", "server"])

def wanAppleFilterRuleAttr : AttrTable := ended (values ["host", "ipaddr"])

def wanOpendnsRuleAttr : AttrTable := ended (values ["name", "enable", "username", "passwd",
  "redirect", "label"])

def lanMainRuleAttr : AttrTable := ended (values ["name", "enable", "mtu", "stp", "weight"])

def wanPptpL2tpGlobalRuleAttr : AttrTable := unended (values ["enable", "selected", "enabled"])

def wanPptpL2tpRuleAttr : AttrTable := ended (values ["enable", "name", "vpn_type", "host",
  "ipaddr", "netmask", "gateway", "username", "passwd", "nailup", "timeout", "pppiptype",
  "custom_ipaddr", "encmode", "auth"])

def wanL2tpStatusRuleAttr : AttrTable := ended (values ["first_start"])

def lanHwaddrRuleDefaultAttr : AttrTable := ended (values ["hwaddr"])

def lanHwaddrCloneRuleAttr : AttrTable := ended (values ["enable", "hwaddr"])

def natRuleAttr : AttrTable := ended (values ["hw_enable"])

def guestLanRuleAttr : AttrTable := ended (values ["enable", "ipaddr", "mask"])

def lanStaticRuleAttr : AttrTable := ended (values ["ipaddr", "mask", "gateway", "dns", "wins"])

def lanDhcpsRuleAttr : AttrTable := ended (values ["name", "enable", "start", "num", "lease",
  "domain", "wins", "dnstype", "dnsaddr1", "dnsaddr2", "dnsaddr3", "dnsaddr4"])

def wl0WdsAttr : AttrTable := ended (values ["hwaddr0", "hwaddr1", "hwaddr2", "hwaddr3"])

def wlWpsStaRuleAttr : AttrTable := ended (values ["mode", "pin", "reg_ssid", "reg_auth", "reg_enc",
  "reg_keyindex", "reg_key"])

def wlWpsRuleAttr : AttrTable := ended (values ["mode", "pin", "configured", "display"])

def bwSbmRuleAttr : AttrTable := ended (values ["name", "enable", "inipaddr_start", "inipaddr_end",
  "inipaddr_num", "proto", "port_start", "port_end", "extif", "bw_alloc", "bw_ratio", "bw_upload",
  "bw_download", "sched_idx", "excess", "excess_ratio", "excess_upload", "excess_download"])

def bwDbmRuleAttr : AttrTable := unended (values ["name", "enable", "inipaddr_start",
  "inipaddr_end", "inipaddr_num", "sched_idx"])

def rtRuleAttr : AttrTable := ended (values ["name", "enable", "srcipaddr_start", "srcipaddr_end",
  "dstipaddr_start", "dstipaddr_end", "proto", "srcport_start", "srcport_end", "dstport_start",
  "dstport_end", "extif", "routing_type", "gateway_ipaddr"])

def wfContentRuleAttr : AttrTable := unended (values ["activex_enable", "java_enable",
  "proxy_enable"])

def wfRuleAttr : AttrTable := unended (values ["enable", "keyword", "type", "access"])

def schedRuleAttr : AttrTable := ended (values ["name", "enable", "used", "start_hour", "start_min",
  "stop_hour", "stop_min", "sun", "mon", "tue", "wed", "thu", "fri", "sat"])

def cronRuleAttr : AttrTable := ended (values ["enable", "ntp_enable", "ntp_interval",
  "reboot_interval", "reboot_countdown", "reboot_hour", "ddns_countdown"])

def ntpRuleAttr : AttrTable := ended (values ["name", "enable", "type", "pool", "ipaddr", "zone",
  "daylight"])

def vlanRuleAttr : AttrTable := ended (values ["name", "enable", "ifname", "vid", "portmember"])

def vlanportRuleAttr : AttrTable := ended (values ["name", "portid", "pvid", "tag", "prio"])

def brRuleAttr : AttrTable := ended (values ["name", "enable", "ifnames", "flag"])

def sshRuleAttr : AttrTable := ended (values ["name", "enable", "port"])

def logRuleAttr : AttrTable := ended (values ["name", "enable", "ipaddr", "ipt_enable", "web_mgmt",
  "dns", "ppp", "upnp", "wireless", "ntp", "sys_warning", "dhcp_serv", "dhcp_cli", "ddns",
  "firewall", "remote_enable", "remote_ip", "proto", "remote_port"])

def upnpRuleAttr : AttrTable := ended (values ["name", "enable", "pmp_enable", "extif", "inif",
  "port"])

def flRuleAttr : AttrTable := ended (values ["name", "enable", "extif", "inif", "srcipaddr_start",
  "srcipaddr_end", "dstipaddr_start", "dstipaddr_end", "proto", "srcport_start", "srcport_end",
  "dstport_start", "dstport_end", "action", "mark", "bw_idx", "sched_idx"])

def flHwaddrRuleAttr : AttrTable := ended (values ["name", "hwaddr", "action", "acl_enable",
  "arp_enable", "dhcp_enable", "ipaddr"])

def frDmzRuleAttr : AttrTable := ended (values ["name", "enable", "ipaddr"])

def tosRuleAttr : AttrTable := ended (values ["enable", "icmp_enable", "dns_enable", "ssh_enable",
  "telnet_enable", "check_enable", "ack_enable"])

def ttlRuleAttr : AttrTable := ended (values ["name", "enable", "value"])

def userRuleAttr : AttrTable := ended (values ["user", "permission_class"])

def httpRuleAttr : AttrTable := ended (values ["name", "enable", "rmgt_enable", "username",
  "passwd", "port"])

def httpRedirectRuleAttr : AttrTable := ended (values ["enable"])

def snmpRuleAttr : AttrTable := ended (values ["enable", "udpport", "tcpport", "community",
  "vendor", "sysname", "location"] ++ b64Values ["contact"] ++ values ["timeout", "auth"])

def adtoolRuleAttr : AttrTable := ended (values ["pingiface", "pinghost", "pingcnt", "arpingiface",
  "arpinghost", "arpingcnt", "tracerouteiface", "traceroutehost", "traceroutecnt"])

def statsRuleAttr : AttrTable := ended (values ["name", "enable", "stime", "ifnames"])

def vncRuleAttr : AttrTable := ended (values ["enable", "vport", "sport", "ipaddr", "mode",
  "event_enable", "event_ipaddr", "event_port"])

def vncAllowRuleAttr : AttrTable := ended (values ["ipaddr"])

def pptpdRuleAttr : AttrTable := ended (values ["enable", "name", "redialperiod", "mtu", "mru",
  "localip", "localip_range", "remoteip", "remoteip_range", "dns_auto_enable", "dns", "chap_enable",
  "mschap_enable", "mschapv2_enable", "eap_enable", "pap_enable", "mppe128_enable",
  "proxyarp_enable", "nat_enable"])

def pptpdUserRuleAttr : AttrTable := ended (values ["enable", "username", "provider", "passwd",
  "ipaddr"])

def l2tpdRuleAttr : AttrTable := ended (values ["enable", "name", "mtu", "mru", "localip",
  "localip_range", "remoteip", "remoteip_range", "dns_auto_enable", "dns", "chap_enable",
  "pap_enable", "proxyarp_enable", "nat_enable"])

def wolRuleAttr : AttrTable := ended (values ["name", "enable", "bcast", "hwaddr", "iface",
  "passwd"])

def ipsecRuleAttr : AttrTable := ended (values ["name", "enable", "mode", "l2tp", "local_extif",
  "local_inipaddr", "local_netmask", "remote_gateway", "remote_inipaddr", "remote_netmask",
  "conn_init", "ike_keymode", "psk", "rsa", "ca", "adv", "phase1_mode", "phase1_left_id",
  "phase1_right_id", "phase1_lifetime", "phase2_lifetime", "phase1_auth", "phase1_encrypt",
  "phase1_group", "phase2_auth", "phase2_encrypt", "phase2_group", "dpd_enable", "dpd_interval",
  "dpd_timeout", "ddns_gateway"])

def ipsecStatusRuleAttr : AttrTable := ended (values ["phase1", "phase2"])

def authServerRuleAttr : AttrTable := ended (values ["web_serv_ipaddr", "web_serv_port",
  "logon_page", "status_page", "logoff_page", "admin_ipaddr", "dns_type", "dns_ipaddr",
  "radius_enable", "radius_ipaddr", "radius_auth_port", "radius_accp_port", "radius_secret",
  "nasid", "locid", "rlocname", "rlocid", "userdb"])

def authUserRuleAttr : AttrTable := ended (values ["name", "password", "valid_time"])

def fwRuleAttr : AttrTable := ended (values ["enable", "syn_enable", "icmp_enable",
  "icmp_redir_enable", "rpfilter_enable", "state_enable", "bc_storm_enable"])

def natPassRuleAttr : AttrTable := ended (values ["enable", "ipsec_enable", "pptp_enable",
  "l2tp_redir_enable", "h323_enable", "rtsp_enable", "mms_enable"])

def wlBasicRuleAttr : AttrTable := ended (values ["enable", "net_mode", "txpower", "channel",
  "bisolation"])

def wlAdvancedRuleAttr : AttrTable := ended (values ["infra", "ap_mode", "rateset", "mrate", "frag",
  "rts", "dtim", "bcn", "plcphdr", "antdiv", "gmode", "gmode_protection", "afterburner",
  "frameburst", "txburst", "pktaggr", "txmode", "rdg", "linkadapt", "htc", "htbw", "gi", "opmode",
  "mcs", "mpdu", "amsdu", "autoba", "bawinsize", "badecline", "extcha", "wdstxmode"])

def wlWdsRuleAttr : AttrTable := ended (values ["mode", "timeout"])

def wlWmeRuleAttr : AttrTable := ended (values ["sta_bk", "sta_be", "sta_vi", "sta_vo", "ap_bk",
  "ap_be", "ap_vi", "ap_vo", "no_ack", "max_assoc"])

def wlvBasicRuleAttr : AttrTable := ended (values ["enable", "hidden", "rate", "wme", "isolation"])

def wlvIfnameRuleAttr : AttrTable := ended (values ["ifname"])

def wlvSsidRuleAttr : AttrTable := ended (values ["ssid"])

def wlvSecRuleAttr : AttrTable := ended (values ["secmode"])

def wlvSecWepRuleAttr : AttrTable := ended (values ["key_index"] ++ b64Values ["key1", "key2",
  "key3", "key4"] ++ values ["keytype", "encmode"])

def smbdRuleAttr : AttrTable := ended (values ["enable", "name", "workgroup", "description",
  "create_mask", "dir_mask", "security", "share_name", "share_path", "share_users", "read_only",
  "guest_ok", "ext_access", "codepage"])

def smbdUserRuleAttr : AttrTable := ended (values ["enable", "name", "passwd"])

def togoRuleAttr : AttrTable := ended (values ["status", "name", "proto", "ip", "port", "mac",
  "config"])

def cameraRuleAttr : AttrTable := ended (values ["enable", "port", "format", "auth_enable", "user",
  "passwd", "config", "resolution"])

def driveRuleAttr : AttrTable := ended (values ["enable", "guest", "port", "ext_access", "name",
  "password", "config"])

def musicRuleAttr : AttrTable := ended (values ["enable"])

def ledRuleAttr : AttrTable := ended (values ["boot", "usb"])

def btRuleAttr : AttrTable := ended (values ["enable", "peer", "max_peer", "max_task",
  "download_rate", "upload_rate", "directory", "session", "load_start", "port_range_start",
  "port_range_end", "dht_port", "check_hash"])

def ftpdRuleAttr : AttrTable := ended (values ["enable", "port", "noanonyous", "chrooteveryone",
  "maxclientsperip", "maxclientnumber", "peruserlimits", "umask", "userbandwidth", "timeout",
  "allow_ext_access"])

def ftpdUserRuleAttr : AttrTable := ended (values ["enable", "username", "passwd", "upload",
  "download", "ipaddr"])

def itunesRuleAttr : AttrTable := unended (values ["enable", "port", "adminpasswd", "mp3dir",
  "servername", "runas", "password", "extensions"])

def storageRuleAttr : AttrTable := ended (values ["codepage", "swap_size", "block_size",
  "ext_enable", "target_ip", "target_dir", "user", "pw", "gp"])

def storageStateRuleAttr : AttrTable := ended (values ["dev_name", "format", "mount_state",
  "insert_state"])

def storageUsedStateRuleAttr : AttrTable := ended (values ["dev_name", "mount_state", "free_state",
  "total_state", "diff_state"])

def myqnapcloudIdRuleAttr : AttrTable := ended (values ["version", "app_token", "refresh_token",
  "auth_token", "token_valid_period", "last_token_update", "qid", "device_id", "device_token",
  "device_name", "status", "ddns_status"])

def modelNameAttr : AttrTable := ended (values ["modelname"])

def isRuleAttr : AttrTable := ended (values ["enable", "isns_serv", "isid", "alias", "max_conn",
  "max_tx", "max_rx"])

def ishostRuleAttr : AttrTable := ended (values ["enable", "host", "action"])

def isuserRuleAttr : AttrTable := ended (values ["enable", "username", "password"])

def appmgrRuleAttr : AttrTable := ended (values ["wlan", "iscsi", "pptp", "l2tp", "ipsec",
  "storage", "wwan", "wisp", "portcfg", "hwnat", "firmware", "iphone", "barry", "smart", "usbled",
  "wimax", "beceem", "guest_lan", "vpnc", "wire"])

def wlvSecWpaRuleAttr : AttrTable := ended (b64Values ["key"] ++ values ["crypto"] ++
  b64Values ["radius_key"] ++ values ["radius_ipaddr", "radius_port", "rekey_mode",
  "rekey_time_interval", "rekey_pkt_interval", "session_timeout"])

def wlvSecWpa2RuleAttr : AttrTable := ended (b64Values ["key"] ++ values ["crypto"] ++
  b64Values ["radius_key"] ++ values ["radius_ipaddr", "radius_port", "rekey_mode",
  "rekey_time_interval", "rekey_pkt_interval", "preauth", "pmkperiod", "session_timeout", "wpacap"])

def wlvAclBasicRuleAttr : AttrTable := ended (values ["enable", "defpolicy"])

def wlvAclRuleAttr : AttrTable := ended (values ["name", "enable", "mac", "policy"])

def wlWdsBasicRuleAttr : AttrTable := ended (values ["hwaddr", "secmode"])

def wlWdsSecWepRuleAttr : AttrTable := ended (b64Values ["key"])

def wlWdsSecWpaRuleAttr : AttrTable := ended (b64Values ["key"] ++ values ["crypto"])

def wlApcliRuleAttr : AttrTable := ended (values ["enable", "ssid", "bssid", "secmode", "wifiwan"])

def wlApcliSecWepRuleAttr : AttrTable := ended (values ["key_index"] ++ b64Values ["key1", "key2",
  "key3", "key4"] ++ values ["keytype", "encmode"])

def wlApcliSecWpaRuleAttr : AttrTable := ended (b64Values ["key"] ++ values ["crypto"])

def wlApcliSwapBasicRuleAttr : AttrTable := ended (values ["enable", "max", "index"])

def wlApcliSwapChannelRuleAttr : AttrTable := ended (values ["channel", "extcha"])

def wlApcliSwapRuleAttr : AttrTable := ended (values ["enable", "ssid", "bssid", "secmode",
  "wifiwan"])

def wlApcliSwapSecWepRuleAttr : AttrTable := ended (values ["key_index"] ++ b64Values ["key1",
  "key2", "key3", "key4"] ++ values ["keytype", "encmode"])

def wlApcliSwapSecWpaRuleAttr : AttrTable := ended (b64Values ["key"] ++ values ["crypto"])

def xModeDataAttr : AttrTable := ended (values ["name", "prod_cat"])

def portcfgRuleAttr : AttrTable := ended (values ["name", "enable", "dispstr", "lan_member",
  "wan_member"])

def appEnableRuleAttr : AttrTable := ended (values ["sbm", "dbm", "gbm"])

def serialNumRuleAttr : AttrTable := ended (values ["serial_num"])

def mfgTestResultRuleAttr : AttrTable := ended (values ["item", "result"])

def igmpProxyRuleAttr : AttrTable := ended (values ["enable"])

def pppControlRuleAttr : AttrTable := ended (values ["gateway_valid"])

def captiveRuleAttr : AttrTable := ended (values ["enable", "port"])

def cardReaderHardwareRuleAttr : AttrTable := ended (values ["dev", "gpio", "gpiopol"])

/-- The table of rule sets. -/
def rules : List RuleTable :=
  [rule "fr_rule" frRuleAttr, rule "plug_rule" plugRuleAttr, rule "cnnt_rule" cnntRuleAttr,
    rule "wizard_rule" wizardRuleAttr, rule "vs_rule" vsRuleAttr, rule "fl_rule" flRuleAttr,
    rule "fr_dmz_rule" frDmzRuleAttr, rule "fl_hwaddr_rule" flHwaddrRuleAttr,
    rule "mac_sense_rule" macSenseAttr, rule "wan_main_rule" wanMainRuleAttr,
    rule "wan_lb_rule" wanLbRuleAttr, rule "wan_detect_rule" wanDetectRuleAttr,
    rule "wan_status_rule" wanStatusRuleAttr, rule "wan_action_style_rule" wanActionStyleRuleAttr,
    rule "storage_device_mount_rule" storageDeviceMountRuleAttr,
    rule "countdown_rule" countdownRuleAttr, rule "license_status_rule" licenseStatusRuleAttr,
    rule "vpn_status_rule" wanStatusRuleAttr, rule "wan_upnp_status_rule" wanUpnpStatusRuleAttr,
    rule "wan_bw_rule" wanBwRuleAttr, rule "wan_static_rule" wanStaticRuleAttr,
    rule "wan_dhcp_rule" wanDhcpRuleAttr, rule "wan_pppoe_rule" wanPppoeRuleAttr,
    rule "wan_wwan_rule" wanWwanRuleAttr, rule "wan_barry_rule" wanBarryRuleAttr,
    rule "wan_pptp_l2tp_global_rule" wanPptpL2tpGlobalRuleAttr,
    rule "wan_pptp_l2tp_rule" wanPptpL2tpRuleAttr,
    rule "wan_l2tp_status_rule" wanL2tpStatusRuleAttr, rule "wan_htc_rule" wanHtcRuleAttr,
    rule "wan_iphone_rule" wanIphoneRuleAttr, rule "wan_beceem_rule" wanBeceemRuleAttr,
    rule "wan_wimax_rule" wanWimaxRuleAttr, rule "wan_wwan_probe_rule" wanWwanProbeRuleAttr,
    rule "wan_bigpond_rule" wanBigpondRuleAttr,
    rule "wan_hwaddr_rule_default" wanHwaddrRuleDefaultAttr,
    rule "wan_hwaddr_clone_rule" wanHwaddrCloneRuleAttr, rule "wan_ddns_rule" wanDdnsRuleAttr,
    rule "wan_apple_filter_rule" wanAppleFilterRuleAttr, rule "wan_opendns_rule" wanOpendnsRuleAttr,
    rule "lan_main_rule" lanMainRuleAttr, rule "lan_hwaddr_rule_default" lanHwaddrRuleDefaultAttr,
    rule "lan_hwaddr_clone_rule" lanHwaddrCloneRuleAttr, rule "guest_lan_rule" guestLanRuleAttr,
    rule "lan_static_rule" lanStaticRuleAttr, rule "lan_status_rule" wanStatusRuleAttr,
    rule "lan_static_rule_default" lanStaticRuleAttr, rule "lan_dhcps_rule" lanDhcpsRuleAttr,
    rule "wl0_wds" wl0WdsAttr, rule "bw_sbm_rule" bwSbmRuleAttr, rule "bw_dbm_rule" bwDbmRuleAttr,
    rule "rt_rule" rtRuleAttr, rule "wf_content_rule" wfContentRuleAttr, rule "wf_rule" wfRuleAttr,
    rule "sched_rule" schedRuleAttr, rule "cron_rule" cronRuleAttr, rule "vlan_rule" vlanRuleAttr,
    rule "vlanport_rule" vlanportRuleAttr, rule "br_rule" brRuleAttr, rule "ntp_rule" ntpRuleAttr,
    rule "ssh_rule" sshRuleAttr, rule "log_rule" logRuleAttr, rule "ttl_rule" ttlRuleAttr,
    rule "tos_rule" tosRuleAttr, rule "upnp_rule" upnpRuleAttr, rule "http_rule" httpRuleAttr,
    rule "user_rule" userRuleAttr, rule "http_redirect_rule" httpRedirectRuleAttr,
    rule "snmp_rule" snmpRuleAttr, rule "adtool_rule" adtoolRuleAttr, rule "smbd_rule" smbdRuleAttr,
    rule "smbd_user_rule" smbdUserRuleAttr, rule "togo_rule" togoRuleAttr,
    rule "camera_rule" cameraRuleAttr, rule "drive_rule" driveRuleAttr,
    rule "music_rule" musicRuleAttr, rule "led_rule" ledRuleAttr, rule "bt_rule" btRuleAttr,
    rule "ftpd_rule" ftpdRuleAttr, rule "ftpd_user_rule" ftpdUserRuleAttr,
    rule "itunes_rule" itunesRuleAttr, rule "storage_rule" storageRuleAttr,
    rule "storage_state_rule" storageStateRuleAttr,
    rule "storage_used_state_rule" storageUsedStateRuleAttr,
    rule "myqnapcloud_id_rule" myqnapcloudIdRuleAttr, rule "model_name" modelNameAttr,
    rule "is_rule" isRuleAttr, rule "ishost_rule" ishostRuleAttr, rule "isuser_rule" isuserRuleAttr,
    rule "appmgr_rule" appmgrRuleAttr, rule "http_rule_default" httpRuleAttr,
    rule "stats_rule" statsRuleAttr, rule "vnc_rule" vncRuleAttr,
    rule "vnc_allow_rule" vncAllowRuleAttr, rule "pptpd_rule" pptpdRuleAttr,
    rule "pptpd_user_rule" pptpdUserRuleAttr, rule "wol_rule" wolRuleAttr,
    rule "ipsec_rule" ipsecRuleAttr, rule "ipsec_status_rule" ipsecStatusRuleAttr,
    rule "l2tpd_rule" l2tpdRuleAttr, rule "l2tpd_user_rule" pptpdUserRuleAttr,
    rule "auth_server_rule" authServerRuleAttr, rule "auth_user_rule" authUserRuleAttr,
    rule "fw_rule" fwRuleAttr, rule "nat_pass_rule" natPassRuleAttr,
    rule "wl_basic_rule" wlBasicRuleAttr, rule "wl_advanced_rule" wlAdvancedRuleAttr,
    rule "wl_wds_rule" wlWdsRuleAttr, rule "wl_wme_rule" wlWmeRuleAttr,
    rule "wl_wps_sta_rule" wlWpsStaRuleAttr, rule "wl_wps_rule" wlWpsRuleAttr,
    rule "wl0_basic_rule" wlvBasicRuleAttr, rule "wl0_ifname_rule" wlvIfnameRuleAttr,
    rule "wl0_ssid_rule" wlvSsidRuleAttr, rule "wl0_sec_rule" wlvSecRuleAttr,
    rule "wl0_sec_wep_rule" wlvSecWepRuleAttr, rule "wl0_sec_wpa_rule" wlvSecWpaRuleAttr,
    rule "wl0_sec_wpa2_rule" wlvSecWpa2RuleAttr, rule "wl00_acl_basic_rule" wlvAclBasicRuleAttr,
    rule "wl00_acl_rule" wlvAclRuleAttr, rule "wl01_acl_basic_rule" wlvAclBasicRuleAttr,
    rule "wl01_acl_rule" wlvAclRuleAttr, rule "wl02_acl_basic_rule" wlvAclBasicRuleAttr,
    rule "wl02_acl_rule" wlvAclRuleAttr, rule "wl03_acl_basic_rule" wlvAclBasicRuleAttr,
    rule "wl03_acl_rule" wlvAclRuleAttr, rule "wl1_basic_rule" wlvBasicRuleAttr,
    rule "wl1_ifname_rule" wlvIfnameRuleAttr, rule "wl1_ssid_rule" wlvSsidRuleAttr,
    rule "wl1_sec_rule" wlvSecRuleAttr, rule "wl1_sec_wep_rule" wlvSecWepRuleAttr,
    rule "wl1_sec_wpa_rule" wlvSecWpaRuleAttr, rule "wl1_sec_wpa2_rule" wlvSecWpa2RuleAttr,
    rule "wl0_wds_basic_rule" wlWdsBasicRuleAttr, rule "wl0_wds_sec_wep_rule" wlWdsSecWepRuleAttr,
    rule "wl0_wds_sec_wpa_rule" wlWdsSecWpaRuleAttr, rule "wl0_apcli_rule" wlApcliRuleAttr,
    rule "wl0_apcli_sec_wep_rule" wlApcliSecWepRuleAttr,
    rule "wl0_apcli_sec_wpa_rule" wlApcliSecWpaRuleAttr,
    rule "wl0_apcli_sec_wpa2_rule" wlApcliSecWpaRuleAttr,
    rule "wl0_apcli_swap_rule" wlApcliSwapRuleAttr,
    rule "wl0_apcli_swap_basic_rule" wlApcliSwapBasicRuleAttr,
    rule "wl0_apcli_swap_channel_rule" wlApcliSwapChannelRuleAttr,
    rule "wl0_apcli_swap_sec_wep_rule" wlApcliSwapSecWepRuleAttr,
    rule "wl0_apcli_swap_sec_wpa_rule" wlApcliSwapSecWpaRuleAttr,
    rule "wl0_apcli_swap_sec_wpa2_rule" wlApcliSwapSecWpaRuleAttr,
    rule "wl1_wds_basic_rule" wlWdsBasicRuleAttr, rule "wl1_wds_sec_wep_rule" wlWdsSecWepRuleAttr,
    rule "wl1_wds_sec_wpa_rule" wlWdsSecWpaRuleAttr, rule "wl1_apcli_rule" wlApcliRuleAttr,
    rule "wl1_apcli_sec_wep_rule" wlApcliSecWepRuleAttr,
    rule "wl1_apcli_sec_wpa_rule" wlApcliSecWpaRuleAttr,
    rule "wl1_apcli_sec_wpa2_rule" wlApcliSecWpaRuleAttr, rule "x_mode_data" xModeDataAttr,
    rule "portcfg_rule" portcfgRuleAttr, rule "nat_rule" natRuleAttr,
    rule "app_enable_rule" appEnableRuleAttr, rule "mfg_test_result_rule" mfgTestResultRuleAttr,
    rule "serial_num_rule" serialNumRuleAttr, rule "captive_rule" captiveRuleAttr,
    rule "igmp_proxy_rule" igmpProxyRuleAttr, rule "ppp_control_rule" pppControlRuleAttr,
    rule "card_reader_hardware_rule" cardReaderHardwareRuleAttr]

/-! ## Facts about them -/

/-- The tables that no entry ends. -/
theorem unended_rules : (rules.filter fun v => none ∉ v.attr).map RuleTable.name =
    ["wan_pptp_l2tp_global_rule", "bw_dbm_rule", "wf_content_rule", "wf_rule",
      "itunes_rule"].map literal := by decide +kernel

/-- A name as one number. -/
def key (name : CStr) : ℕ := name.val.foldl (fun n b => 256 * n + b.toNat) 0

/-- Every rule set has one table. -/
theorem rules_nodup : (rules.map RuleTable.name).Nodup := by
  have hkeys : ((rules.map RuleTable.name).map key).Nodup := by decide +kernel
  exact hkeys.of_map key

theorem filter_name_of_nodup {vs : List RuleTable} (h : (vs.map RuleTable.name).Nodup)
    {v : RuleTable} (hv : v ∈ vs) : (vs.filter fun w => w.name = v.name) = [v] := by
  induction vs with
  | nil => cases hv
  | cons w vs ih =>
    obtain ⟨hw, hvs⟩ := List.nodup_cons.mp h
    rcases List.mem_cons.mp hv with rfl | hv
    · have hrest : (vs.filter fun w => w.name = v.name) = [] := by
        rw [List.filter_eq_nil_iff]
        intro w hmem hname
        exact hw (List.mem_map.mpr ⟨w, hmem, by simpa using hname⟩)
      rw [List.filter_cons_of_pos (by simp), hrest]
    · have hne : w.name ≠ v.name := fun he => hw (he ▸ List.mem_map_of_mem hv)
      rw [List.filter_cons_of_neg (by simpa using hne), ih hvs hv]

theorem filter_name {v : RuleTable} (hv : v ∈ rules) :
    (rules.filter fun w => w.name = v.name) = [v] := filter_name_of_nodup rules_nodup hv

/-- No table has more entries than a scan has places for. -/
theorem tables_short : ∀ v ∈ rules, v.attr.length ≤ MAX_ATTR_NUM := by decide +kernel

end EzpFirmware.UserNvram
