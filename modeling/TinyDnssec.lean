import TinyDnssec.Base.Decimal
import TinyDnssec.Base.Cyclic
import TinyDnssec.Base.Framing
import TinyDnssec.Name
import TinyDnssec.Packet
import TinyDnssec.Query.Glue
import TinyDnssec.Query.Records
import TinyDnssec.Clients
import TinyDnssec.Dnsfilter
import TinyDnssec.Compression
import TinyDnssec.Data.Tlsa
import TinyDnssec.Lookup.Selection
import TinyDnssec.Lookup.Referral
import TinyDnssec.Axfr
import TinyDnssec.Base32
import TinyDnssec.Sign.Dots
import TinyDnssec.Sign.Bitmaps
import TinyDnssec.Printpacket
import TinyDnssec.History
import TinyDnssec.Datagrams
import TinyDnssec.Sign.Hashlists
import TinyDnssec.Axfrdns
import TinyDnssec.Edit
import TinyDnssec.Lookup.Addresses
import TinyDnssec.Lookup.Covering
import TinyDnssec.Query.Followed
import TinyDnssec.Ip6
import TinyDnssec.Locations
import TinyDnssec.Pickdns
import TinyDnssec.Qualify
import TinyDnssec.Rbldns
import TinyDnssec.Query.Route
import TinyDnssec.Query.Shared
import TinyDnssec.Roots
import TinyDnssec.Sha1
import TinyDnssec.Traffic
import TinyDnssec.Transmit
import TinyDnssec.Walldns
import TinyDnssec.Trace.Answers
