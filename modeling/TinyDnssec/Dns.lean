import TinyDnssec.Base.Bytes

/-!
# Type and class codes

The constants of `dns.h`, as the two octets that stand in packets and in the data file's records.
-/

namespace TinyDnssec

open Octets

def dnsCIn : Bytes := [0, 1]

def dnsTA : Bytes := [0, 1]
def dnsTNs : Bytes := [0, 2]
def dnsTCname : Bytes := [0, 5]
def dnsTSoa : Bytes := [0, 6]
def dnsTPtr : Bytes := [0, 12]
def dnsTMx : Bytes := [0, 15]
def dnsTTxt : Bytes := [0, 16]
def dnsTAaaa : Bytes := [0, 28]
def dnsTSrv : Bytes := [0, 33]
def dnsTOpt : Bytes := [0, 41]
def dnsTDs : Bytes := [0, 43]
def dnsTRrsig : Bytes := [0, 46]
def dnsTDnskey : Bytes := [0, 48]
def dnsTNsec3 : Bytes := [0, 50]
def dnsTNsec3param : Bytes := [0, 51]
def dnsTTlsa : Bytes := [0, 52]
def dnsTAxfr : Bytes := [0, 252]
def dnsTAny : Bytes := [0, 255]

/-- Does a query ask for addresses? -/
def flagA (qtype : Bytes) : Bool := decide (qtype = dnsTA) || decide (qtype = dnsTAny)

/-- The helper record that names the NSEC3 owner of an existing name. -/
def dnsTHashref : Bytes := [255, 1]

/-- The helper record that lists the hashes of one nibble. -/
def dnsTHashlist : Bytes := [255, 2]

end TinyDnssec
